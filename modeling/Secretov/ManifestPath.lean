import Secretov.Lib.Agree
import Secretov.Manifest

/-! The path of a manifest is for its error texts: what is accepted under one path
is accepted under any. -/

namespace Secretov

open Prog (Agree)

variable {yaml : YamlCpp}

theorem requireManifestEnvName_agree (name path path' what what' : Bytes) :
    Agree Eq (requireManifestEnvName name path what) (requireManifestEnvName name path' what') := by
  unfold requireManifestEnvName
  split_ifs
  · exact .error _ _
  · exact .error _ _
  · exact .ok rfl

theorem refuseUnknownKeys_agree (map : Yaml) (allowed : List Bytes) (path path' «where» where' : Bytes) :
    Agree Eq (refuseUnknownKeys yaml map allowed path «where»)
    (refuseUnknownKeys yaml map allowed path' where') := by
  unfold refuseUnknownKeys
  refine .forM (fun pair => (Agree.refl (yaml.asString pair.1)).bind_eq fun key => ?_) map.pairs
  exact .throwIf (key ∉ allowed) _ _

theorem requireLocation_agree (type : BackendType) (value path path' «where» where' : Bytes) :
    Agree Eq (requireLocation type value path «where») (requireLocation type value path' where') := by
  unfold requireLocation requireAwsRegion requireGcpProject
  split_ifs
  · exact .error _ _
  · exact .ok rfl
  · exact .error _ _
  · exact .ok rfl

theorem parseLocation_agree (node : Yaml) (type : BackendType) (path path' «where» where' : Bytes) :
    Agree Eq (parseLocation yaml node type path «where») (parseLocation yaml node type path' where') := by
  refine (Agree.forM (fun key => .throwIf _ _ _) _).bind_eq fun _ => ?_
  cases if ownKey type = [] then none else node.find? (ownKey type) with
  | none => exact .ok rfl
  | some valueNode =>
    refine (Agree.throwIf _ _ _).bind_eq fun _ => (Agree.refl (yaml.asString valueNode)).bind_eq fun value => ?_
    exact (requireLocation_agree type value ..).bind_eq fun _ => .ok rfl

theorem backendType_agree (typeName path path' : Bytes) :
    Agree Eq (backendType typeName path) (backendType typeName path') := by
  unfold backendType
  split_ifs
  · exact .ok rfl
  · exact .ok rfl
  · exact .ok rfl
  · exact .error _ _

theorem parseBackend_agree (node : Option Yaml) (path path' : Bytes) :
    Agree Eq (parseBackend yaml node path) (parseBackend yaml node path') := by
  cases node with
  | none => exact .ok rfl
  | some node =>
    refine (Agree.throwIf _ _ _).bind_eq fun _ => (refuseUnknownKeys_agree node ..).bind_eq fun _ => ?_
    cases (node.find? (text "type")).filter Yaml.isScalar with
    | none => exact .error _ _
    | some typeNode =>
      refine (Agree.refl (yaml.asString typeNode)).bind_eq fun typeName => ?_
      refine (backendType_agree typeName path path').bind_eq fun type => ?_
      refine (parseLocation_agree node type ..).bind_eq fun location => ?_
      cases type with
      | «local» => exact .ok rfl
      | aws | gcp =>
        cases location with
        | some location => exact .ok rfl
        | none => exact .error _ _

theorem optionalScalar_agree (body : Yaml) (key path path' described described' name name' : Bytes) :
    Agree Eq (optionalScalar yaml body key path described name)
      (optionalScalar yaml body key path' described' name') := by
  unfold optionalScalar
  cases body.find? key with
  | none => exact .ok rfl
  | some node =>
    refine (Agree.throwIf _ _ _).bind_eq fun _ => (Agree.refl (yaml.asString node)).bind_eq fun value => ?_
    exact (Agree.throwIf _ _ _).bind_eq fun _ => .ok rfl

theorem entryKind_agree (kind : Option Bytes) (path path' described described' : Bytes) :
    Agree Eq (entryKind kind path described) (entryKind kind path' described') := by
  cases kind with
  | none => exact .ok rfl
  | some kind =>
    unfold entryKind
    dsimp only
    split_ifs
    · exact .ok rfl
    · exact .error _ _
    · exact .ok rfl

theorem resolveAwsPath_agree (secretPath envLocation path path' described described' : Bytes) :
    Agree Eq (resolveAwsPath secretPath envLocation path described)
      (resolveAwsPath secretPath envLocation path' described') := by
  unfold resolveAwsPath
  split_ifs
  · exact .error _ _
  · exact .ok rfl
  · dsimp only
    split
    · refine (Agree.throwIf _ _ _).bind_eq fun _ => Agree.bind_eq ?_ fun _ => .ok rfl
      unfold requireAwsRegion
      split_ifs
      · exact .error _ _
      · exact .ok rfl
    · exact .error _ _

theorem resolveGcpPath_agree (secretPath envLocation path path' described described' : Bytes) :
    Agree Eq (resolveGcpPath secretPath envLocation path described)
      (resolveGcpPath secretPath envLocation path' described') := by
  unfold resolveGcpPath
  split_ifs
  · exact .error _ _
  · exact .ok rfl
  · dsimp only
    split
    · split_ifs
      · exact .error _ _
      · exact .ok rfl
    · exact .error _ _

theorem entryTarget_agree (path path' env project name described envLocation : Bytes) (type : BackendType)
    (kind : EntryKind) (key secretPath : Option Bytes) :
    Agree Eq (entryTarget path env project name described envLocation type kind key secretPath)
      (entryTarget path' env project name described envLocation type kind key secretPath) := by
  unfold entryTarget
  split_ifs with hlocal
  · refine (Agree.throwIf _ _ _).bind_eq fun _ => (Agree.throwIf _ _ _).bind_eq fun _ => ?_
    exact .refl _
  · cases secretPath with
    | none => exact .error _ _
    | some secretPath =>
      refine (Agree.throwIf _ _ _).bind_eq fun _ => (Agree.throwIf _ _ _).bind_eq fun _ =>
        Agree.bind_eq ?_ fun _ => .ok rfl
      split_ifs
      · exact resolveAwsPath_agree ..
      · exact resolveGcpPath_agree ..

theorem parseEnvSecret_agree (path path' env project : Bytes) (type : BackendType) (envLocation : Bytes)
    (secretPair : Yaml × Yaml) :
    Agree Eq (parseEnvSecret yaml path env project type envLocation secretPair)
      (parseEnvSecret yaml path' env project type envLocation secretPair) := by
  refine (Agree.refl (yaml.asString secretPair.1)).bind_eq fun name => ?_
  dsimp only
  split
  · exact .error _ _
  · refine (refuseUnknownKeys_agree ..).bind_eq fun _ => (Agree.refl _).bind_eq fun envVar => ?_
    refine (requireManifestEnvName_agree ..).bind_eq fun _ => (optionalScalar_agree ..).bind_eq fun kindText => ?_
    refine (entryKind_agree ..).bind_eq fun kind => (optionalScalar_agree ..).bind_eq fun key => ?_
    refine (optionalScalar_agree ..).bind_eq fun secretPath => (entryTarget_agree ..).bind_eq fun target => ?_
    exact .ok rfl

theorem parseEnvSecrets_agree (secrets : Option Yaml) (path path' env project : Bytes) (type : BackendType)
    (envLocation : Bytes) : Agree Eq (parseEnvSecrets yaml secrets path env project type envLocation)
      (parseEnvSecrets yaml secrets path' env project type envLocation) := by
  match secrets with
  | none | some .null => exact .ok rfl
  | some (.map pairs) => exact .mapM (fun pair => parseEnvSecret_agree ..) pairs
  | some (.scalar s) | some (.sequence items) => exact .error _ _

theorem parseEnvVars_agree (vars : Option Yaml) (path path' env : Bytes) :
    Agree Eq (parseEnvVars yaml vars path env) (parseEnvVars yaml vars path' env) := by
  match vars with
  | none | some .null => exact .ok rfl
  | some (.map pairs) =>
    refine .mapM (fun pair => (Agree.refl (yaml.asString pair.1)).bind_eq fun varName => ?_) pairs
    refine (requireManifestEnvName_agree ..).bind_eq fun _ => (Agree.throwIf _ _ _).bind_eq fun _ => ?_
    exact .refl _
  | some (.scalar s) | some (.sequence items) => exact .error _ _

theorem parseEnv_agree (path path' project : Bytes) (backend : BackendConfig) (env : Bytes) (envNode : Yaml) :
    Agree Eq (parseEnv yaml path project backend env envNode)
    (parseEnv yaml path' project backend env envNode) := by
  unfold parseEnv
  split_ifs
  · exact .ok rfl
  · refine (Agree.throwIf _ _ _).bind_eq fun _ => (refuseUnknownKeys_agree ..).bind_eq fun _ => ?_
    refine (parseLocation_agree ..).bind_eq fun location => (parseEnvSecrets_agree ..).bind_eq fun entries => ?_
    refine (parseEnvVars_agree ..).bind_eq fun plain => Agree.bind_eq ?_ fun _ => .ok rfl
    exact .forM (fun var => .forM (fun entry => .throwIf _ _ _) entries) plain

/-- The same manifest, found at another path. -/
def Relocated (m m' : Manifest) : Prop := ∃ path, m' = { m with path }

theorem addEnv_agree (path path' : Bytes) {m m' : Manifest} (h : Relocated m m') (envPair : Yaml × Yaml) :
    Agree Relocated (addEnv yaml path m envPair) (addEnv yaml path' m' envPair) := by
  refine (Agree.refl (yaml.asString envPair.1)).bind_eq fun env => (Agree.refl _).bind_eq fun _ => ?_
  obtain ⟨found, rfl⟩ := h
  exact (parseEnv_agree path path' m.project m.backend env envPair.2).bind_eq fun parsed => .ok ⟨found, rfl⟩

theorem parseDefaultEnv_agree (node : Option Yaml) (path path' : Bytes) :
    Agree Eq (parseDefaultEnv yaml node path) (parseDefaultEnv yaml node path') := by
  cases node with
  | none => exact .ok rfl
  | some node => exact (Agree.throwIf _ _ _).bind_eq fun _ => .refl _

theorem parseDocument_agree (doc : Yaml) (path path' : Bytes) :
    Agree Relocated (parseDocument yaml doc path) (parseDocument yaml doc path') := by
  refine (Agree.throwIf _ _ _).bind_eq fun _ => (refuseUnknownKeys_agree ..).bind_eq fun _ => ?_
  cases (doc.find? (text "name")).filter Yaml.isScalar with
  | none => exact .error _ _
  | some nameNode =>
    refine (Agree.refl (yaml.asString nameNode)).bind_eq fun project => (Agree.refl _).bind_eq fun _ => ?_
    refine (parseBackend_agree ..).bind_eq fun backend => (parseDefaultEnv_agree ..).bind_eq fun defaultEnv => ?_
    dsimp only
    match doc.find? (text "env") with
    | none | some .null => exact .ok ⟨path', rfl⟩
    | some (.map pairs) => exact .foldlM (fun m m' pair h => addEnv_agree path path' h pair) ⟨path', rfl⟩ pairs
    | some (.scalar s) | some (.sequence items) => exact .error _ _

theorem parseManifest_agree (contents path path' : Bytes) :
    Agree Relocated (parseManifest yaml contents path) (parseManifest yaml contents path') :=
  ((Agree.refl _).bind_eq fun doc => parseDocument_agree doc path path').mapError _ _

end Secretov
