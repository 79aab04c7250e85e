import Secretov.Bytes

/-! The names that a manifest may give to environment variables (manifest.cpp). -/

namespace Secretov

def isDigit (c : UInt8) : Bool := '0'.toUInt8 ≤ c && c ≤ '9'.toUInt8

def isLower (c : UInt8) : Bool := 'a'.toUInt8 ≤ c && c ≤ 'z'.toUInt8

def isUpper (c : UInt8) : Bool := 'A'.toUInt8 ≤ c && c ≤ 'Z'.toUInt8

def isAlpha (c : UInt8) : Bool := isLower c || isUpper c

def isAlnum (c : UInt8) : Bool := isAlpha c || isDigit c

def toUpper (c : UInt8) : UInt8 := if isLower c then c - 32 else c

def underscore : UInt8 := '_'.toUInt8

def isIdentifier : Bytes → Bool
  | [] => false
  | c :: s => (isAlpha c || c == underscore) && (c :: s).all fun c => isAlnum c || c == underscore

def kDeniedPrefixes : List Bytes :=
  ["LD_", "DYLD_", "SECRETOV_", "GIT_", "XDG_", "NPM_CONFIG_", "BUNDLE_", "GEM_",
    "LUA_", "PIP_", "UV_", "CARGO_", "RUSTUP_", "RUSTC_", "DOTNET_", "CORECLR_",
    "AWS_ENDPOINT_URL", "CLOUDSDK_"].map text

def kDeniedNames : List Bytes :=
  ["PATH", "HOME", "BASH_ENV", "ENV", "IFS",
    "PROMPT_COMMAND", "PS1", "PS4", "ZDOTDIR", "PAGER",
    "PSQL_PAGER", "MANPAGER", "LESSOPEN", "LESSCLOSE", "EDITOR",
    "VISUAL", "GCONV_PATH", "NODE_OPTIONS", "NODE_PATH", "PYTHONSTARTUP",
    "PYTHONPATH", "PYTHONHOME", "PERL5OPT", "PERL5LIB", "RUBYOPT",
    "RUBYLIB", "JAVA_TOOL_OPTIONS", "JDK_JAVA_OPTIONS", "_JAVA_OPTIONS", "PERLLIB",
    "PYTHONUSERBASE", "PSQLRC", "SSH_ASKPASS", "SSH_ASKPASS_REQUIRE", "KUBECONFIG",
    "AWS_CONFIG_FILE", "AWS_SHARED_CREDENTIALS_FILE", "OPENSSL_CONF", "OPENSSL_ENGINES", "OPENSSL_MODULES",
    "GOFLAGS", "CLASSPATH", "MAVEN_OPTS", "GRADLE_OPTS", "DOCKER_HOST",
    "PYTHONWARNINGS", "PYTHONBREAKPOINT", "BROWSER", "PERL5DB", "PHPRC",
    "PHP_INI_SCAN_DIR", "GLIBC_TUNABLES", "LOCPATH", "NLSPATH", "SHELLOPTS",
    "BASHOPTS", "R_PROFILE_USER", "JULIA_LOAD_PATH", "TCLLIBPATH", "ERL_AFLAGS",
    "ELIXIR_ERL_OPTIONS", "RUSTC", "RUSTDOC", "RUSTFLAGS", "RUSTDOCFLAGS",
    "GOENV", "GOROOT", "GOTOOLCHAIN", "GOWORK", "CC",
    "CXX", "MAKEFLAGS", "MFLAGS", "GNUMAKEFLAGS",
    "GOPROXY", "GONOPROXY", "GOPRIVATE", "GOSUMDB", "GONOSUMDB",
    "GONOSUMCHECK", "GOINSECURE",
    "SSL_CERT_FILE", "SSL_CERT_DIR", "CURL_CA_BUNDLE", "REQUESTS_CA_BUNDLE", "NODE_EXTRA_CA_CERTS",
    "SSLKEYLOGFILE", "NODE_TLS_REJECT_UNAUTHORIZED", "AWS_CA_BUNDLE", "PYTHONHTTPSVERIFY",
    "AWS_EC2_METADATA_SERVICE_ENDPOINT", "AWS_CONTAINER_CREDENTIALS_FULL_URI", "AWS_WEB_IDENTITY_TOKEN_FILE",
    "GOOGLE_APPLICATION_CREDENTIALS", "GOOGLE_CLOUD_UNIVERSE_DOMAIN", "GCE_METADATA_HOST", "GCE_METADATA_IP",
    "GCE_METADATA_ROOT", "AWS_DATA_PATH", "AWS_CSM_HOST", "AWS_CONTAINER_AUTHORIZATION_TOKEN_FILE",
    "GRPC_DEFAULT_SSL_ROOTS_FILE_PATH", "HTTPLIB2_CA_CERTS",
    "AWS_PROFILE", "AWS_DEFAULT_PROFILE"].map text

def kCredentialNames : List Bytes :=
  ["CARGO_REGISTRY_TOKEN", "UV_PUBLISH_TOKEN", "UV_PUBLISH_PASSWORD", "UV_PUBLISH_USERNAME"].map text

def kRegistries : Bytes := text "CARGO_REGISTRIES_"

def kTokenSuffix : Bytes := text "_TOKEN"

def kProxySuffix : Bytes := text "_PROXY"

def isDeniedEnvName (name : Bytes) : Bool :=
  let upper := name.map toUpper
  if kCredentialNames.any (upper == ·) then false
  else if upper.length > kRegistries.length + kTokenSuffix.length && kRegistries.isPrefixOf upper &&
      kTokenSuffix.isSuffixOf upper then false
  else if kDeniedPrefixes.any (·.isPrefixOf upper) then true
  else if kDeniedNames.any (upper == ·) then true
  else upper != text "NO_PROXY" && upper.length ≥ kProxySuffix.length && kProxySuffix.isSuffixOf upper

/-- `[A-Za-z_][A-Za-z0-9_]*`. -/
def Identifier (name : Bytes) : Prop :=
  ∃ c rest, name = c :: rest ∧ (isAlpha c ∨ c = underscore) ∧ ∀ b ∈ rest, isAlnum b ∨ b = underscore

/-- One of the named credentials, or `CARGO_REGISTRIES_<name>_TOKEN`. -/
def Credential (upper : Bytes) : Prop :=
  upper ∈ kCredentialNames ∨ ∃ registry, registry ≠ [] ∧ upper = kRegistries ++ registry ++ kTokenSuffix

def Harmless (upper : Bytes) : Prop :=
  (∀ p ∈ kDeniedPrefixes, ¬ p <+: upper) ∧ upper ∉ kDeniedNames ∧
    (upper = text "NO_PROXY" ∨ ¬ kProxySuffix <:+ upper)

def Settable (name : Bytes) : Prop :=
  Identifier name ∧ (Credential (name.map toUpper) ∨ Harmless (name.map toUpper))

theorem isIdentifier_iff {name : Bytes} : isIdentifier name = true ↔ Identifier name := by
  cases name with
  | nil => simp [isIdentifier, Identifier]
  | cons c rest =>
    have hfirst : isAlpha c = true → isAlnum c = true := by
      intro h
      simp [isAlnum, h]
    constructor
    · intro h
      simp only [isIdentifier, List.all_cons, Bool.and_eq_true, Bool.or_eq_true, beq_iff_eq,
        List.all_eq_true] at h
      exact ⟨c, rest, rfl, h.1, h.2.2⟩
    · rintro ⟨_, _, ⟨⟩, hc, hrest⟩
      simp only [isIdentifier, List.all_cons, Bool.and_eq_true, Bool.or_eq_true, beq_iff_eq, List.all_eq_true]
      exact ⟨hc, hc.imp_left hfirst, hrest⟩

theorem registry_token_iff {upper : Bytes} :
    (upper.length > kRegistries.length + kTokenSuffix.length ∧ kRegistries <+: upper ∧ kTokenSuffix <:+ upper) ↔
      ∃ registry, registry ≠ [] ∧ upper = kRegistries ++ registry ++ kTokenSuffix := by
  constructor
  · rintro ⟨hlen, ⟨rest, rfl⟩, hsuffix⟩
    have htoken : kTokenSuffix <:+ rest := by
      apply List.suffix_of_suffix_length_le hsuffix (List.suffix_append _ _)
      simp only [List.length_append] at hlen
      omega
    obtain ⟨registry, rfl⟩ := htoken
    refine ⟨registry, ?_, by simp⟩
    rintro rfl
    simp at hlen
  · rintro ⟨registry, hne, rfl⟩
    have hpos := List.length_pos_iff.mpr hne
    refine ⟨?_, ⟨registry ++ kTokenSuffix, by simp⟩, ⟨kRegistries ++ registry, rfl⟩⟩
    simp only [List.length_append]
    omega

/-- The deny list lets through exactly the credentials and the harmless names. -/
theorem isDeniedEnvName_eq_false {name : Bytes} :
    isDeniedEnvName name = false ↔ Credential (name.map toUpper) ∨ Harmless (name.map toUpper) := by
  unfold isDeniedEnvName
  generalize name.map toUpper = upper
  have hcredential : (kCredentialNames.any (upper == ·) = true ∨ (decide (upper.length >
      kRegistries.length + kTokenSuffix.length) && kRegistries.isPrefixOf upper &&
      kTokenSuffix.isSuffixOf upper) = true) ↔ Credential upper := by
    simp only [Credential, ← registry_token_iff, Bool.and_eq_true, decide_eq_true_eq, and_assoc, List.any_eq_true,
      beq_iff_eq, exists_eq_right', List.isPrefixOf_iff_prefix, List.isSuffixOf_iff_suffix]
  simp only
  split_ifs with hcred htoken hprefix hname
  · exact iff_of_true rfl (Or.inl (hcredential.mp (Or.inl hcred)))
  · exact iff_of_true rfl (Or.inl (hcredential.mp (Or.inr htoken)))
  all_goals have hno : ¬ Credential upper := fun hc => (hcredential.mpr hc).elim hcred htoken
  · obtain ⟨p, hp, hpre⟩ := List.any_eq_true.mp hprefix
    exact iff_of_false (by simp) fun h => h.elim hno fun hh => hh.1 p hp (List.isPrefixOf_iff_prefix.mp hpre)
  · have hmem : upper ∈ kDeniedNames := by simpa using hname
    exact iff_of_false (by simp) fun h => h.elim hno fun hh => hh.2.1 hmem
  · have hmem : upper ∉ kDeniedNames := by simpa using hname
    have hprefixes : ∀ p ∈ kDeniedPrefixes, ¬ p <+: upper := by
      intro p hp hpre
      exact hprefix (List.any_eq_true.mpr ⟨p, hp, List.isPrefixOf_iff_prefix.mpr hpre⟩)
    have hlong : kProxySuffix <:+ upper → upper.length ≥ kProxySuffix.length := List.IsSuffix.length_le
    rw [or_iff_right hno, Harmless, and_iff_right hprefixes, and_iff_right hmem, ← Bool.not_eq_true]
    simp only [Bool.and_eq_true, bne_iff_ne, decide_eq_true_eq, List.isSuffixOf_iff_suffix]
    tauto

theorem settable_iff {name : Bytes} : isIdentifier name = true ∧ isDeniedEnvName name = false ↔
    Settable name := by
  rw [isIdentifier_iff, isDeniedEnvName_eq_false, Settable]

end Secretov
