import Secretov.Manifest

/-! A manifest that is accepted names nothing that it may not: no loader
variable, no host of its own choosing, no key of the store outside its scope or
its explicit wish. -/

namespace Secretov

/-- Every key of a mapping is one of `allowed`. -/
def KeysWithin (allowed : List Bytes) (node : Yaml) : Prop :=
  ∀ pair ∈ node.pairs, ∃ key ∈ allowed, pair.1 = .scalar key

/-- The pairs of the mapping at a key. -/
def Yaml.pairsAt (node : Yaml) (key : Bytes) : List (Yaml × Yaml) :=
  ((node.find? key).map Yaml.pairs).getD []

structure KnownKeys (doc : Yaml) : Prop where
  top : KeysWithin [text "version", text "name", text "backend", text "default_env", text "env"] doc
  backend : ∀ node, doc.find? (text "backend") = some node →
    KeysWithin [text "type", text "region", text "project"] node
  env : ∀ pair ∈ doc.pairsAt (text "env"),
    KeysWithin [text "vars", text "secrets", text "region", text "project"] pair.2
  entry : ∀ pair ∈ doc.pairsAt (text "env"), ∀ secret ∈ pair.2.pairsAt (text "secrets"),
    KeysWithin [text "env_var_name", text "key", text "kind", text "path"] secret.2

def GoodLocation : BackendType → Bytes → Prop
  | .local, location => location = []
  | .aws, location => location ∈ kRegions
  | .gcp, location => GcpProject location

/-- The location of an environment: its own, else that of the backend. -/
def envLocation (backend : BackendConfig) (envNode : Yaml) : Bytes :=
  match envNode.find? (ownKey backend.type) with
  | some (.scalar location) => location
  | _ => backend.location

structure EntryVetted (backend : BackendConfig) (project env : Bytes) (envNode body : Yaml) (e : SecretEntry) :
    Prop where
  envVar : Settable e.envVar ∧ body.find? (text "env_var_name") = some (.scalar e.envVar)
  onLocal : backend.type = .local → e.kind = .text ∧ e.field = [] ∧ e.location = [] ∧
    match body.find? (text "key") with
    | none => e.path = env ++ slash :: (project ++ slash :: e.name)
    | some key => key = .scalar e.path ∧ e.path ≠ []
  onCloud : backend.type ≠ .local → body.find? (text "path") = some (.scalar e.path) ∧
    (e.field ≠ [] ↔ e.kind = .kv) ∧ GoodLocation backend.type e.location
  onAws : backend.type = .aws → AwsResolves (envLocation backend envNode) e.path e.location
  onGcp : backend.type = .gcp → GcpResolves (envLocation backend envNode) e.path e.location

structure EnvVetted (yaml : YamlCpp) (backend : BackendConfig) (project env : Bytes) (envNode : Yaml)
    (entries : List SecretEntry) (plain : KeyValues) : Prop where
  segment : Segment env
  eachVar : ∀ var ∈ plain, Settable var.1
  eachEntry : ∀ e ∈ entries, ∃ secret ∈ envNode.pairsAt (text "secrets"), yaml.asString secret.1 = .ok e.name ∧
    EntryVetted backend project env envNode secret.2 e
  distinct : ∀ var ∈ plain, ∀ e ∈ entries, e.envVar ≠ var.1

/-- Every environment of the manifest is one of the document, and vetted. -/
def EnvsVetted (yaml : YamlCpp) (envPairs : List (Yaml × Yaml)) (m : Manifest) : Prop :=
  ∀ env, (m.envs[env]? = none ∧ m.vars[env]? = none) ∨ ∃ entries plain, m.envs[env]? = some entries ∧
    m.vars[env]? = some plain ∧ ∃ pair ∈ envPairs, yaml.asString pair.1 = .ok env ∧
      EnvVetted yaml m.backend m.project env pair.2 entries plain

structure Vetted (yaml : YamlCpp) (doc : Yaml) (m : Manifest) : Prop where
  project : Segment m.project ∧ doc.find? (text "name") = some (.scalar m.project)
  backend : GoodLocation m.backend.type m.backend.location
  envs : EnvsVetted yaml (doc.pairsAt (text "env")) m
  keys : KnownKeys doc

section

variable {yaml : YamlCpp}

theorem requireManifestEnvName_eq_ok {name path what : Bytes} {u : Unit}
    (h : requireManifestEnvName name path what = .ok u) : Settable name := by
  unfold requireManifestEnvName at h
  split_ifs at h with hid hdenied
  exact settable_iff.mp ⟨by simpa using hid, by simpa using hdenied⟩

theorem refuseUnknownKeys_eq_ok {map : Yaml} {allowed : List Bytes} {path «where» : Bytes} {u : Unit}
    (h : refuseUnknownKeys yaml map allowed path «where» = .ok u) (hnull : text "null" ∉ allowed) :
    KeysWithin allowed map := by
  intro pair hpair
  obtain ⟨key, hkey, hmem⟩ := Prog.except_bind_eq_ok.mp (Prog.except_forM_eq_ok h pair hpair)
  have hmem : key ∈ allowed := not_not.mp (Prog.throwIf_eq_ok hmem)
  rcases YamlCpp.asString_eq_ok hkey with hscalar | ⟨-, rfl⟩
  · exact ⟨key, hmem, hscalar⟩
  · exact absurd hmem hnull

theorem scalar_of_throwIf {node : Yaml} {e : Thrown} {u : Unit} {value : Bytes}
    (h : Prog.throwIf (!node.isScalar) e = .ok u) (hvalue : yaml.asString node = .ok value) :
    node = .scalar value :=
  YamlCpp.asString_of_isScalar (by simpa using Prog.throwIf_eq_ok h) hvalue

theorem requireLocation_eq_ok {type : BackendType} {value path «where» : Bytes} {u : Unit}
    (h : requireLocation type value path «where» = .ok u) (hcloud : type ≠ .local) : GoodLocation type value := by
  unfold requireLocation at h
  cases type with
  | «local» => exact absurd rfl hcloud
  | aws => exact requireAwsRegion_eq_ok h
  | gcp => exact requireGcpProject_eq_ok h

theorem parseLocation_eq_ok {node : Yaml} {type : BackendType} {path «where» : Bytes} {location : Option Bytes}
    (h : parseLocation yaml node type path «where» = .ok location) (hcloud : type ≠ .local) :
    node.find? (ownKey type) = location.map .scalar ∧ ∀ value ∈ location, GoodLocation type value := by
  obtain ⟨_, -, h⟩ := Prog.except_bind_eq_ok.mp h
  have hkey : ownKey type ≠ [] := by
    cases type with
    | «local» => exact absurd rfl hcloud
    | aws | gcp => decide
  rw [if_neg hkey] at h
  split at h
  · rename_i hnone
    obtain rfl := Except.ok.inj h
    exact ⟨hnone, by simp⟩
  · rename_i valueNode hsome
    obtain ⟨_, hscalar, h⟩ := Prog.except_bind_eq_ok.mp h
    obtain ⟨value, hvalue, h⟩ := Prog.except_bind_eq_ok.mp h
    obtain ⟨_, hgood, h⟩ := Prog.except_bind_eq_ok.mp h
    obtain rfl := Except.ok.inj h
    refine ⟨by rw [hsome, scalar_of_throwIf hscalar hvalue]; rfl, ?_⟩
    rintro _ ⟨⟩
    exact requireLocation_eq_ok hgood hcloud

/-- An environment is in a location of the backend's kind. -/
theorem goodLocation_env {backend : BackendConfig} {envNode : Yaml} {path «where» : Bytes}
    {location : Option Bytes} (hbackend : GoodLocation backend.type backend.location)
    (h : parseLocation yaml envNode backend.type path «where» = .ok location) (hcloud : backend.type ≠ .local) :
    location.getD backend.location = envLocation backend envNode ∧
      GoodLocation backend.type (envLocation backend envNode) := by
  obtain ⟨hfind, hgood⟩ := parseLocation_eq_ok h hcloud
  cases location with
  | none =>
    have henv : envLocation backend envNode = backend.location := by simp [envLocation, hfind]
    rw [henv]
    exact ⟨rfl, hbackend⟩
  | some location =>
    have henv : envLocation backend envNode = location := by simp [envLocation, hfind]
    rw [henv]
    exact ⟨rfl, hgood location rfl⟩

theorem parseBackend_eq_ok {node : Option Yaml} {path : Bytes} {backend : BackendConfig}
    (h : parseBackend yaml node path = .ok backend) : GoodLocation backend.type backend.location ∧
      ∀ n, node = some n → KeysWithin [text "type", text "region", text "project"] n := by
  cases node with
  | none =>
    obtain rfl := Except.ok.inj h
    exact ⟨rfl, by simp⟩
  | some node =>
    obtain ⟨_, -, h⟩ := Prog.except_bind_eq_ok.mp h
    obtain ⟨_, hkeys, h⟩ := Prog.except_bind_eq_ok.mp h
    have hkeys := refuseUnknownKeys_eq_ok hkeys (by decide)
    refine ⟨?_, fun n hn => Option.some.inj hn ▸ hkeys⟩
    split at h
    · cases h
    obtain ⟨typeName, -, h⟩ := Prog.except_bind_eq_ok.mp h
    obtain ⟨type, -, h⟩ := Prog.except_bind_eq_ok.mp h
    obtain ⟨location, hlocation, h⟩ := Prog.except_bind_eq_ok.mp h
    split at h
    · obtain rfl := Except.ok.inj h
      rfl
    · rename_i hcloud
      obtain rfl := Except.ok.inj h
      exact (parseLocation_eq_ok hlocation hcloud).2 _ rfl
    · cases h

theorem optionalScalar_eq_ok {body : Yaml} {key manifestPath described entryName : Bytes} {value : Option Bytes}
    (h : optionalScalar yaml body key manifestPath described entryName = .ok value) :
    body.find? key = value.map .scalar ∧ value ≠ some [] := by
  unfold optionalScalar at h
  split at h
  · rename_i hnone
    obtain rfl := Except.ok.inj h
    exact ⟨hnone, by simp⟩
  · rename_i node hnode
    obtain ⟨_, hscalar, h⟩ := Prog.except_bind_eq_ok.mp h
    obtain ⟨v, hv, h⟩ := Prog.except_bind_eq_ok.mp h
    obtain ⟨_, hempty, h⟩ := Prog.except_bind_eq_ok.mp h
    obtain rfl := Except.ok.inj h
    refine ⟨by rw [hnode, scalar_of_throwIf hscalar hv]; rfl, ?_⟩
    simpa using Prog.throwIf_eq_ok hempty

theorem localTarget_eq_ok {path env project name described : Bytes} {kind : EntryKind}
    {key secretPath : Option Bytes} {target : Bytes × Bytes × Bytes}
    (h : localTarget path env project name described kind key secretPath = .ok target) :
    kind = .text ∧ target = (key.getD (env ++ slash :: (project ++ slash :: name)), [], []) := by
  obtain ⟨_, -, h⟩ := Prog.except_bind_eq_ok.mp h
  obtain ⟨_, hkind, h⟩ := Prog.except_bind_eq_ok.mp h
  have hkind : kind = .text := by
    cases kind with
    | text => rfl
    | kv => exact absurd rfl (Prog.throwIf_eq_ok hkind)
  cases key with
  | none =>
    obtain ⟨storeKey, hkey, h⟩ := Prog.except_bind_eq_ok.mp h
    obtain rfl := Except.ok.inj h
    exact ⟨hkind, by rw [(scopedKey_eq_ok hkey).2.2.2]; rfl⟩
  | some key =>
    obtain rfl := Except.ok.inj h
    exact ⟨hkind, rfl⟩

theorem cloudTarget_eq_ok {path described location : Bytes} {type : BackendType} {kind : EntryKind}
    {key secretPath : Option Bytes} {target : Bytes × Bytes × Bytes} (hkey : key ≠ some [])
    (h : cloudTarget path described location type kind key secretPath = .ok target) :
    secretPath = some target.1 ∧ (target.2.1 ≠ [] ↔ kind = .kv) ∧
      (type = .aws → AwsResolves location target.1 target.2.2) ∧
      (type ≠ .aws → GcpResolves location target.1 target.2.2) := by
  unfold cloudTarget at h
  split at h
  · cases h
  · obtain ⟨_, -, h⟩ := Prog.except_bind_eq_ok.mp h
    obtain ⟨_, hkv, h⟩ := Prog.except_bind_eq_ok.mp h
    obtain ⟨resolved, hresolved, h⟩ := Prog.except_bind_eq_ok.mp h
    obtain rfl := Except.ok.inj h
    refine ⟨rfl, ?_, ?_, ?_⟩
    · cases kind with
      | text => simp
      | kv =>
        cases key with
        | none => exact absurd ⟨rfl, rfl⟩ (Prog.throwIf_eq_ok hkv)
        | some key => simpa using hkey
    · rintro rfl
      exact resolveAwsPath_eq_ok hresolved
    · intro hne
      rw [if_neg hne] at hresolved
      exact resolveGcpPath_eq_ok hresolved

theorem AwsResolves.good {location secretPath resolved : Bytes} (h : AwsResolves location secretPath resolved)
    (hlocation : location ∈ kRegions) : resolved ∈ kRegions := by
  rcases h with ⟨-, rfl⟩ | ⟨_, _, -, hregion, -⟩
  · exact hlocation
  · exact hregion

theorem GcpResolves.good {location secretPath resolved : Bytes} (h : GcpResolves location secretPath resolved)
    (hlocation : GcpProject location) : GcpProject resolved := by
  rcases h with ⟨-, rfl⟩ | ⟨_, -, hproject, -⟩
  · exact hlocation
  · exact hproject

theorem parseEnvSecret_envVar {path env project location : Bytes} {type : BackendType} {secretPair : Yaml × Yaml}
    {e : SecretEntry} (h : parseEnvSecret yaml path env project type location secretPair = .ok e) :
    secretPair.2.find? (text "env_var_name") = some (.scalar e.envVar) := by
  obtain ⟨name, -, h⟩ := Prog.except_bind_eq_ok.mp h
  simp only at h
  split at h
  · cases h
  rename_i envVarNode hnode
  obtain ⟨_, -, h⟩ := Prog.except_bind_eq_ok.mp h
  obtain ⟨envVar, hvar, h⟩ := Prog.except_bind_eq_ok.mp h
  obtain ⟨_, -, h⟩ := Prog.except_bind_eq_ok.mp h
  obtain ⟨kindText, -, h⟩ := Prog.except_bind_eq_ok.mp h
  obtain ⟨kind, -, h⟩ := Prog.except_bind_eq_ok.mp h
  obtain ⟨key, -, h⟩ := Prog.except_bind_eq_ok.mp h
  obtain ⟨secretPath, -, h⟩ := Prog.except_bind_eq_ok.mp h
  obtain ⟨target, -, h⟩ := Prog.except_bind_eq_ok.mp h
  obtain rfl := Except.ok.inj h
  split_ifs at hnode
  obtain ⟨hfind, hscalar⟩ := Option.filter_eq_some_iff.mp hnode
  rw [hfind, YamlCpp.asString_of_isScalar hscalar hvar]

/-- An entry that is accepted, in an environment whose location is good. -/
theorem parseEnvSecret_eq_ok {path env project location : Bytes} {backend : BackendConfig} {envNode : Yaml}
    {secretPair : Yaml × Yaml} {e : SecretEntry}
    (hlocation : backend.type ≠ .local → location = envLocation backend envNode ∧
    GoodLocation backend.type location)
    (h : parseEnvSecret yaml path env project backend.type location secretPair = .ok e) :
    yaml.asString secretPair.1 = .ok e.name ∧
      KeysWithin [text "env_var_name", text "key", text "kind", text "path"] secretPair.2 ∧
      EntryVetted backend project env envNode secretPair.2 e := by
  have henvVar := parseEnvSecret_envVar h
  obtain ⟨name, hname, h⟩ := Prog.except_bind_eq_ok.mp h
  simp only at h
  split at h
  · cases h
  obtain ⟨_, hkeys, h⟩ := Prog.except_bind_eq_ok.mp h
  obtain ⟨envVar, -, h⟩ := Prog.except_bind_eq_ok.mp h
  obtain ⟨_, hsettable, h⟩ := Prog.except_bind_eq_ok.mp h
  obtain ⟨kindText, -, h⟩ := Prog.except_bind_eq_ok.mp h
  obtain ⟨kind, -, h⟩ := Prog.except_bind_eq_ok.mp h
  obtain ⟨key, hkey, h⟩ := Prog.except_bind_eq_ok.mp h
  obtain ⟨secretPath, hpath, h⟩ := Prog.except_bind_eq_ok.mp h
  obtain ⟨target, htarget, h⟩ := Prog.except_bind_eq_ok.mp h
  obtain rfl := Except.ok.inj h
  obtain ⟨hkeyfind, hkeyne⟩ := optionalScalar_eq_ok hkey
  obtain ⟨hpathfind, -⟩ := optionalScalar_eq_ok hpath
  have hcloud : backend.type ≠ .local → secretPath = some target.1 ∧ (target.2.1 ≠ [] ↔ kind = .kv) ∧
      (backend.type = .aws → AwsResolves location target.1 target.2.2) ∧
      (backend.type ≠ .aws → GcpResolves location target.1 target.2.2) := by
    intro hcloud
    rw [entryTarget, if_neg hcloud] at htarget
    exact cloudTarget_eq_ok hkeyne htarget
  refine ⟨hname, refuseUnknownKeys_eq_ok hkeys (by decide), ⟨requireManifestEnvName_eq_ok hsettable, henvVar⟩, ?_,
    ?_, ?_, ?_⟩
  · intro hlocal
    rw [entryTarget, if_pos hlocal] at htarget
    obtain ⟨hkind, rfl⟩ := localTarget_eq_ok htarget
    refine ⟨hkind, rfl, rfl, ?_⟩
    rw [hkeyfind]
    cases key with
    | none => rfl
    | some key => exact ⟨rfl, fun hempty => hkeyne (congrArg some hempty)⟩
  · intro hne
    obtain ⟨rfl, hfield, haws, hgcp⟩ := hcloud hne
    refine ⟨hpathfind, hfield, ?_⟩
    have hgood := (hlocation hne).2
    cases htype : backend.type with
    | «local» => exact absurd htype hne
    | aws =>
      rw [htype] at hgood
      exact (haws htype).good hgood
    | gcp =>
      rw [htype] at hgood
      exact (hgcp (by simp [htype])).good hgood
  · intro htype
    have hne : backend.type ≠ .local := by simp [htype]
    rw [← (hlocation hne).1]
    exact (hcloud hne).2.2.1 htype
  · intro htype
    have hne : backend.type ≠ .local := by simp [htype]
    rw [← (hlocation hne).1]
    exact (hcloud hne).2.2.2 (by simp [htype])

theorem parseEnvVar_eq_ok {path env : Bytes} {varPair : Yaml × Yaml} {var : Bytes × Bytes}
    (h : parseEnvVar yaml path env varPair = .ok var) : Settable var.1 := by
  obtain ⟨varName, -, h⟩ := Prog.except_bind_eq_ok.mp h
  obtain ⟨_, hsettable, h⟩ := Prog.except_bind_eq_ok.mp h
  obtain ⟨_, -, h⟩ := Prog.except_bind_eq_ok.mp h
  obtain ⟨value, -, h⟩ := Prog.except_bind_eq_ok.mp h
  obtain rfl := Except.ok.inj h
  exact requireManifestEnvName_eq_ok hsettable

theorem parseEnvVars_eq_ok {vars : Option Yaml} {path env : Bytes} {plain : KeyValues}
    (h : parseEnvVars yaml vars path env = .ok plain) : ∀ var ∈ plain, Settable var.1 := by
  unfold parseEnvVars at h
  split at h
  · obtain rfl := Except.ok.inj h
    simp
  · obtain rfl := Except.ok.inj h
    simp
  · intro var hvar
    obtain ⟨pair, -, hpair⟩ := (Prog.except_mapM_eq_ok h).2 var hvar
    exact parseEnvVar_eq_ok hpair
  · cases h

theorem parseEnvSecrets_eq_ok {path env project location : Bytes} {backend : BackendConfig} {envNode : Yaml}
    {entries : List SecretEntry}
    (hlocation : backend.type ≠ .local → location = envLocation backend envNode ∧
    GoodLocation backend.type location)
    (h : parseEnvSecrets yaml (envNode.find? (text "secrets")) path env project backend.type location =
    .ok entries) : (∀ secret ∈ envNode.pairsAt (text "secrets"),
      KeysWithin [text "env_var_name", text "key", text "kind", text "path"] secret.2) ∧
    ∀ e ∈ entries, ∃ secret ∈ envNode.pairsAt (text "secrets"), yaml.asString secret.1 = .ok e.name ∧
      EntryVetted backend project env envNode secret.2 e := by
  unfold parseEnvSecrets at h
  unfold Yaml.pairsAt
  split at h
  · rename_i hnode
    obtain rfl := Except.ok.inj h
    simp [hnode]
  · rename_i hnode
    obtain rfl := Except.ok.inj h
    simp [hnode, Yaml.pairs]
  · rename_i pairs hnode
    rw [hnode]
    obtain ⟨hall, hmem⟩ := Prog.except_mapM_eq_ok h
    refine ⟨fun secret hsecret => ?_, fun e he => ?_⟩
    · obtain ⟨e, he⟩ := hall secret hsecret
      exact (parseEnvSecret_eq_ok hlocation he).2.1
    · obtain ⟨secret, hsecret, he⟩ := hmem e he
      obtain ⟨hname, -, hvetted⟩ := parseEnvSecret_eq_ok hlocation he
      exact ⟨secret, hsecret, hname, hvetted⟩
  · cases h

theorem refuseSetTwice_eq_ok {plain : KeyValues} {entries : List SecretEntry} {path env : Bytes} {u : Unit}
    (h : refuseSetTwice plain entries path env = .ok u) : ∀ var ∈ plain, ∀ e ∈ entries, e.envVar ≠ var.1 := by
  intro var hvar e he
  exact Prog.throwIf_eq_ok (Prog.except_forM_eq_ok (Prog.except_forM_eq_ok h var hvar) e he)

/-- The keys of one environment and of its entries. -/
def EnvKeysKnown (envNode : Yaml) : Prop :=
  KeysWithin [text "vars", text "secrets", text "region", text "project"] envNode ∧
    ∀ secret ∈ envNode.pairsAt (text "secrets"),
      KeysWithin [text "env_var_name", text "key", text "kind", text "path"] secret.2

theorem parseEnv_eq_ok {path project : Bytes} {backend : BackendConfig} {env : Bytes} {envNode : Yaml}
    {parsed : List SecretEntry × KeyValues} (hsegment : Segment env)
    (hbackend : GoodLocation backend.type backend.location)
    (h : parseEnv yaml path project backend env envNode = .ok parsed) :
    EnvKeysKnown envNode ∧ EnvVetted yaml backend project env envNode parsed.1 parsed.2 := by
  unfold parseEnv at h
  split_ifs at h with hnull
  · obtain rfl := Except.ok.inj h
    rw [Yaml.isNull_iff.mp hnull]
    refine ⟨⟨?_, ?_⟩, hsegment, ?_, ?_, ?_⟩
    all_goals simp [KeysWithin, Yaml.pairs, Yaml.pairsAt, Yaml.find?]
  · obtain ⟨_, -, h⟩ := Prog.except_bind_eq_ok.mp h
    obtain ⟨_, hkeys, h⟩ := Prog.except_bind_eq_ok.mp h
    obtain ⟨location, hlocation, h⟩ := Prog.except_bind_eq_ok.mp h
    obtain ⟨entries, hentries, h⟩ := Prog.except_bind_eq_ok.mp h
    obtain ⟨plain, hplain, h⟩ := Prog.except_bind_eq_ok.mp h
    obtain ⟨_, htwice, h⟩ := Prog.except_bind_eq_ok.mp h
    obtain rfl := Except.ok.inj h
    have hgood : backend.type ≠ .local → location.getD backend.location = envLocation backend envNode ∧
        GoodLocation backend.type (location.getD backend.location) := by
      intro hcloud
      obtain ⟨heq, hgood⟩ := goodLocation_env hbackend hlocation hcloud
      exact ⟨heq, heq ▸ hgood⟩
    obtain ⟨hknown, hvetted⟩ := parseEnvSecrets_eq_ok hgood hentries
    exact ⟨⟨refuseUnknownKeys_eq_ok hkeys (by decide), hknown⟩, hsegment, parseEnvVars_eq_ok hplain, hvetted,
      refuseSetTwice_eq_ok htwice⟩

/-- One more environment of the document. An earlier one of the same name is replaced. -/
theorem addEnv_eq_ok {path : Bytes} {m m' : Manifest} {pair : Yaml × Yaml} {envPairs : List (Yaml × Yaml)}
    (hpair : pair ∈ envPairs) (hbackend : GoodLocation m.backend.type m.backend.location)
    (hm : EnvsVetted yaml envPairs m) (h : addEnv yaml path m pair = .ok m') :
    EnvKeysKnown pair.2 ∧ m'.project = m.project ∧ m'.backend = m.backend ∧ EnvsVetted yaml envPairs m' := by
  obtain ⟨env, henv, h⟩ := Prog.except_bind_eq_ok.mp h
  obtain ⟨_, hsegment, h⟩ := Prog.except_bind_eq_ok.mp h
  obtain ⟨parsed, hparsed, h⟩ := Prog.except_bind_eq_ok.mp h
  obtain rfl := Except.ok.inj h
  obtain ⟨hkeys, hvetted⟩ := parseEnv_eq_ok (requireSegment_eq_ok hsegment) hbackend hparsed
  refine ⟨hkeys, rfl, rfl, fun name => ?_⟩
  simp only [Std.ExtTreeMap.getElem?_insert]
  by_cases hname : compare env name = .eq
  · obtain rfl := Std.LawfulEqCmp.eq_of_compare hname
    exact Or.inr ⟨parsed.1, parsed.2, by simp, by simp, pair, hpair, henv, hvetted⟩
  · simp only [hname, if_false]
    exact hm name

theorem parseDocument_eq_ok {doc : Yaml} {path : Bytes} {m : Manifest} (h : parseDocument yaml doc path = .ok m) :
    Vetted yaml doc m := by
  obtain ⟨_, -, h⟩ := Prog.except_bind_eq_ok.mp h
  obtain ⟨_, htop, h⟩ := Prog.except_bind_eq_ok.mp h
  have htop := refuseUnknownKeys_eq_ok htop (by decide)
  split at h
  · cases h
  rename_i nameNode hname
  obtain ⟨hfind, hscalar⟩ := Option.filter_eq_some_iff.mp hname
  obtain ⟨project, hproject, h⟩ := Prog.except_bind_eq_ok.mp h
  obtain ⟨_, hsegment, h⟩ := Prog.except_bind_eq_ok.mp h
  obtain ⟨backend, hbackend, h⟩ := Prog.except_bind_eq_ok.mp h
  obtain ⟨defaultEnv, -, h⟩ := Prog.except_bind_eq_ok.mp h
  obtain ⟨hlocation, hbackendKeys⟩ := parseBackend_eq_ok hbackend
  rw [YamlCpp.asString_of_isScalar hscalar hproject] at hfind
  have hsegment := requireSegment_eq_ok hsegment
  have hempty : ∀ {envPairs}, EnvsVetted yaml envPairs
      { path, project, backend, defaultEnv, envs := ∅, vars := ∅ } :=
    fun env => Or.inl ⟨by simp, by simp⟩
  split at h
  · rename_i hnone
    obtain rfl := Except.ok.inj h
    exact ⟨⟨hsegment, hfind⟩, hlocation, hempty, htop, hbackendKeys, by simp [Yaml.pairsAt, hnone],
      by simp [Yaml.pairsAt, hnone]⟩
  · rename_i hnull
    obtain rfl := Except.ok.inj h
    exact ⟨⟨hsegment, hfind⟩, hlocation, hempty, htop, hbackendKeys, by simp [Yaml.pairsAt, hnull, Yaml.pairs],
      by simp [Yaml.pairsAt, hnull, Yaml.pairs]⟩
  · rename_i pairs hpairs
    have henvPairs : doc.pairsAt (text "env") = pairs := by simp [Yaml.pairsAt, hpairs, Yaml.pairs]
    obtain ⟨⟨hp, hb, hvetted⟩, hall⟩ := Prog.except_foldlM_eq_ok
      (fun m : Manifest => m.project = project ∧ m.backend = backend ∧ EnvsVetted yaml pairs m)
      (by
        rintro m pair m' hpair ⟨hp, hb, hm⟩ hadd
        obtain ⟨-, hp', hb', hm'⟩ := addEnv_eq_ok hpair (by rw [hb]; exact hlocation) hm hadd
        exact ⟨hp'.trans hp, hb'.trans hb, hm'⟩)
      ⟨rfl, rfl, hempty⟩ h
    have hknown : ∀ pair ∈ pairs, EnvKeysKnown pair.2 := by
      intro pair hpair
      obtain ⟨b, c, ⟨-, hb, hm⟩, hadd⟩ := hall pair hpair
      exact (addEnv_eq_ok hpair (by rw [hb]; exact hlocation) hm hadd).1
    rw [← henvPairs] at hvetted hknown
    exact ⟨⟨hp ▸ hsegment, hp ▸ hfind⟩, hb ▸ hlocation, hvetted, htop, hbackendKeys,
      fun pair hpair => (hknown pair hpair).1, fun pair hpair => (hknown pair hpair).2⟩
  · cases h

theorem parseManifest_eq_ok {contents path : Bytes} {m : Manifest} : parseManifest yaml contents path = .ok m ↔
    ∃ doc, yaml.load contents = .ok doc ∧ parseDocument yaml doc path = .ok m := by
  unfold parseManifest
  cases hload : yaml.load contents with
  | error what => simp [Except.mapError, bind, Except.bind]
  | ok doc =>
    cases hparsed : parseDocument yaml doc path with
    | error e => simp [Except.mapError, bind, Except.bind, hparsed]
    | ok m' => simp [Except.mapError, bind, Except.bind, hparsed]

/-- The parser is a trust boundary: whatever the document, a manifest that comes
of it is vetted, and so are the keys of every mapping that was consulted. -/
theorem parse_manifest_trusted {contents path : Bytes} {m : Manifest}
    (h : parseManifest yaml contents path = .ok m) : ∃ doc, yaml.load contents = .ok doc ∧ Vetted yaml doc m := by
  obtain ⟨doc, hload, hdoc⟩ := parseManifest_eq_ok.mp h
  exact ⟨doc, hload, parseDocument_eq_ok hdoc⟩

end

def sampleManifest : Bytes :=
  text "name: shop
backend: \x7btype: aws, region: eu-west-1\x7d
env:
  dev:
    secrets:
      pypi:
        env_var_name: UV_PUBLISH_TOKEN
        kind: kv
        key: token
        path: arn:aws:secretsmanager:us-east-1:123456789012:secret:shop/pypi
      crates:
        env_var_name: CARGO_REGISTRIES_CORP_TOKEN
        path: shop/crates
"

def Yaml.ofText (s : String) : Yaml := .scalar (text s)

def sampleTree : Yaml :=
  .map [(.ofText "name", .ofText "shop"),
    (.ofText "backend", .map [(.ofText "type", .ofText "aws"), (.ofText "region", .ofText "eu-west-1")]),
    (.ofText "env", .map [(.ofText "dev", .map [(.ofText "secrets", .map [
      (.ofText "pypi", .map [(.ofText "env_var_name", .ofText "UV_PUBLISH_TOKEN"), (.ofText "kind", .ofText "kv"),
        (.ofText "key", .ofText "token"),
        (.ofText "path", .ofText "arn:aws:secretsmanager:us-east-1:123456789012:secret:shop/pypi")]),
      (.ofText "crates", .map [(.ofText "env_var_name", .ofText "CARGO_REGISTRIES_CORP_TOKEN"),
        (.ofText "path", .ofText "shop/crates")])])])])]

/-- A parser that knows one text. -/
def loadOnly (contents : Bytes) (doc : Yaml) : YamlCpp where
  load c := if c = contents then .ok doc else .error (text "bad file")
  badConversion _ := text "bad conversion"

theorem loadOnly_load (contents : Bytes) (doc : Yaml) : (loadOnly contents doc).load contents = .ok doc :=
  if_pos rfl

def sampleYamlCpp : YamlCpp := loadOnly sampleManifest sampleTree

theorem parse_manifest_trusted_sample : ∃ m doc, parseManifest sampleYamlCpp sampleManifest (text "m") = .ok m ∧
    sampleYamlCpp.load sampleManifest = .ok doc ∧ Vetted sampleYamlCpp doc m := by
  have hload : sampleYamlCpp.load sampleManifest = .ok sampleTree := loadOnly_load _ _
  have hok : (parseDocument sampleYamlCpp sampleTree (text "m")).isOk = true := by decide
  obtain ⟨m, hm⟩ := Prog.except_exists_of_isOk hok
  have h := parseManifest_eq_ok.mpr ⟨_, hload, hm⟩
  obtain ⟨doc, hdoc, hvetted⟩ := parse_manifest_trusted h
  exact ⟨m, doc, h, hdoc, hvetted⟩

end Secretov
