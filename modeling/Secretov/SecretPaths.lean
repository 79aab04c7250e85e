import Secretov.EnvNames
import Secretov.Lib.Prog
import Secretov.Yaml

/-! Paths of secrets and the locations they resolve in, for each type of backend
(manifest.cpp). -/

namespace Secretov

inductive BackendType where
  | «local»
  | aws
  | gcp
deriving DecidableEq

def backendTypeName : BackendType → Bytes
  | .local => text "local"
  | .aws => text "aws"
  | .gcp => text "gcp"

def colon : UInt8 := ':'.toUInt8

def isAsciiAlnum (c : UInt8) : Bool := isDigit c || isLower c || isUpper c

def isLowerOrDigit (c : UInt8) : Bool := isDigit c || isLower c

def isName (s extra : Bytes) (max : Nat) : Bool :=
  !s.isEmpty && s.length ≤ max && s.all fun c => isAsciiAlnum c || extra.contains c

def isAwsSecretName (s : Bytes) : Bool := isName s (text "/_+=.@-") 512

def isGcpSecretId (s : Bytes) : Bool := isName s (text "_-") 255

def isGcpProject (s : Bytes) : Bool :=
  s.length ≥ 6 && s.length ≤ 30 && s.head?.any isLower && s.getLast?.any isLowerOrDigit &&
    s.all fun c => isLowerOrDigit c || c == '-'.toUInt8

def isAwsAccount (s : Bytes) : Bool := s.length == 12 && s.all isDigit

def kRegions : List Bytes :=
  ["us-east-1", "us-east-2", "us-west-1", "us-west-2", "af-south-1", "ap-east-1",
    "ap-east-2", "ap-south-1", "ap-south-2", "ap-southeast-1", "ap-southeast-2", "ap-southeast-3",
    "ap-southeast-4", "ap-southeast-5", "ap-southeast-6", "ap-southeast-7", "ap-northeast-1", "ap-northeast-2",
    "ap-northeast-3", "ca-central-1", "ca-west-1", "eu-central-1", "eu-central-2", "eu-west-1",
    "eu-west-2", "eu-west-3", "eu-north-1", "eu-south-1", "eu-south-2", "il-central-1",
    "me-south-1", "me-central-1", "mx-central-1", "sa-east-1"].map text

def isKnownAwsRegion (region : Bytes) : Bool := kRegions.contains region

def splitOn (s : Bytes) (separator : UInt8) : List Bytes := List.splitOn separator s

def manifestError (path message : Bytes) : Thrown :=
  .runtimeError (text "manifest '" ++ path ++ text "': " ++ message)

def requireSegment (s what : Bytes) : Except Thrown Unit :=
  if s.isEmpty || s.contains slash then
    .error (.runtimeError (what ++ text " must be non-empty and contain no '/': '" ++ s ++ text "'"))
  else .ok ()

def scopedKey (env project name : Bytes) : Except Thrown Bytes := do
  requireSegment env (text "environment")
  requireSegment project (text "project")
  requireSegment name (text "secret name")
  return env ++ slash :: (project ++ slash :: name)

def requireAwsRegion (region manifestPath what : Bytes) : Except Thrown Unit :=
  if !isKnownAwsRegion region then
    .error (manifestError manifestPath
      (what ++ text " region '" ++ region ++ text "' is not in this build's region table; upgrade secretov"))
  else .ok ()

def requireGcpProject (project manifestPath what : Bytes) : Except Thrown Unit :=
  if !isGcpProject project then
    .error (manifestError manifestPath (what ++ text " project '" ++ project ++
      text "' is not a valid GCP project id (lowercase id, 6-30 characters)"))
  else .ok ()

def resolveAwsPath (secretPath envLocation manifestPath described : Bytes) : Except Thrown Bytes :=
  if !(text "arn:").isPrefixOf secretPath then
    if !isAwsSecretName secretPath then
      .error (manifestError manifestPath (described ++ text " path is not a valid AWS secret name or ARN"))
    else .ok envLocation
  else
    let invalid := manifestError manifestPath (described ++ text (" path is not a valid ARN " ++
      "(arn:aws:secretsmanager:REGION:ACCOUNT:secret:NAME; partition aws only)"))
    match splitOn secretPath colon with
    | [_, aws, secretsmanager, region, account, secret, name] => do
      Prog.throwIf (aws ≠ text "aws" ∨ secretsmanager ≠ text "secretsmanager" ∨ !isAwsAccount account ∨
        secret ≠ text "secret" ∨ !isAwsSecretName name) invalid
      requireAwsRegion region manifestPath (described ++ text " ARN")
      return region
    | _ => .error invalid

def resolveGcpPath (secretPath envLocation manifestPath described : Bytes) : Except Thrown Bytes :=
  if !(text "projects/").isPrefixOf secretPath then
    if !isGcpSecretId secretPath then
      .error (manifestError manifestPath
        (described ++ text " path is not a valid GCP secret id or resource name"))
    else .ok envLocation
  else
    let invalid := manifestError manifestPath (described ++
      text " path is not a valid resource name (projects/PROJECT/secrets/ID)")
    match splitOn secretPath slash with
    | [_, project, secrets, id] =>
      if secrets ≠ text "secrets" ∨ !isGcpProject project ∨ !isGcpSecretId id then .error invalid
      else .ok project
    | _ => .error invalid

def Segment (s : Bytes) : Prop := s ≠ [] ∧ slash ∉ s

/-- `[A-Za-z0-9<extra>]{1,<max>}`. -/
def Name (extra : Bytes) (max : Nat) (s : Bytes) : Prop :=
  s ≠ [] ∧ s.length ≤ max ∧ ∀ c ∈ s, isDigit c ∨ isLower c ∨ isUpper c ∨ c ∈ extra

/-- `[a-z][a-z0-9-]{4,28}[a-z0-9]`. -/
def GcpProject (s : Bytes) : Prop :=
  6 ≤ s.length ∧ s.length ≤ 30 ∧ (∀ c ∈ s.head?, isLower c) ∧ (∀ c ∈ s.getLast?, isLower c ∨ isDigit c) ∧
    ∀ c ∈ s, isLower c ∨ isDigit c ∨ c = '-'.toUInt8

def AwsAccount (s : Bytes) : Prop := s.length = 12 ∧ ∀ c ∈ s, isDigit c

abbrev AwsSecretName : Bytes → Prop := Name (text "/_+=.@-") 512

abbrev GcpSecretId : Bytes → Prop := Name (text "_-") 255

def arn (region account name : Bytes) : Bytes :=
  text "arn:aws:secretsmanager:" ++ region ++ text ":" ++ account ++ text ":secret:" ++ name

def resourceName (project id : Bytes) : Bytes :=
  text "projects/" ++ project ++ text "/secrets/" ++ id

/-- A path that AWS understands, in an environment at `envLocation`, and its region. -/
def AwsResolves (envLocation secretPath location : Bytes) : Prop :=
  (AwsSecretName secretPath ∧ location = envLocation) ∨
    ∃ account name, secretPath = arn location account name ∧ location ∈ kRegions ∧ AwsAccount account ∧
      AwsSecretName name

/-- A path that GCP understands, in an environment at `envLocation`, and its project. -/
def GcpResolves (envLocation secretPath location : Bytes) : Prop :=
  (GcpSecretId secretPath ∧ location = envLocation) ∨
    ∃ id, secretPath = resourceName location id ∧ GcpProject location ∧ GcpSecretId id

theorem isName_iff {s extra : Bytes} {max : Nat} : isName s extra max = true ↔ Name extra max s := by
  simp [isName, Name, isAsciiAlnum, and_assoc, or_assoc]

theorem isAwsAccount_iff {s : Bytes} : isAwsAccount s = true ↔ AwsAccount s := by
  simp [isAwsAccount, AwsAccount]

theorem isGcpProject_iff {s : Bytes} : isGcpProject s = true ↔ GcpProject s := by
  cases s with
  | nil => simp [isGcpProject, GcpProject]
  | cons c rest =>
    have hlast : (c :: rest).getLast? = some ((c :: rest).getLast (by simp)) := List.getLast?_eq_some_getLast _
    simp only [isGcpProject, GcpProject, hlast, List.head?_cons, Option.any_some, Option.mem_some_iff, forall_eq',
      isLowerOrDigit, Bool.and_eq_true, Bool.or_eq_true, decide_eq_true_eq, List.all_eq_true, beq_iff_eq,
      ge_iff_le]
    grind

theorem requireSegment_eq_ok {s what : Bytes} {u : Unit} (h : requireSegment s what = .ok u) : Segment s := by
  unfold requireSegment at h
  split_ifs at h with hbad
  simpa [Segment, not_or] using hbad

theorem scopedKey_eq_ok {env project name key : Bytes} (h : scopedKey env project name = .ok key) :
    Segment env ∧ Segment project ∧ Segment name ∧ key = env ++ slash :: (project ++ slash :: name) := by
  obtain ⟨_, henv, h⟩ := Prog.except_bind_eq_ok.mp h
  obtain ⟨_, hproject, h⟩ := Prog.except_bind_eq_ok.mp h
  obtain ⟨_, hname, h⟩ := Prog.except_bind_eq_ok.mp h
  exact ⟨requireSegment_eq_ok henv, requireSegment_eq_ok hproject, requireSegment_eq_ok hname,
    (Except.ok.inj h).symm⟩

theorem requireAwsRegion_eq_ok {region manifestPath what : Bytes} {u : Unit}
    (h : requireAwsRegion region manifestPath what = .ok u) : region ∈ kRegions := by
  unfold requireAwsRegion at h
  split_ifs at h with hbad
  simpa [isKnownAwsRegion] using hbad

theorem requireGcpProject_eq_ok {project manifestPath what : Bytes} {u : Unit}
    (h : requireGcpProject project manifestPath what = .ok u) : GcpProject project := by
  unfold requireGcpProject at h
  split_ifs at h with hbad
  simpa [isGcpProject_iff] using hbad

theorem arn_eq_intercalate (region account name : Bytes) : arn region account name = [colon].intercalate
    [text "arn", text "aws", text "secretsmanager", region, account, text "secret", name] := by
  have hhead : text "arn:aws:secretsmanager:" =
      text "arn" ++ [colon] ++ text "aws" ++ [colon] ++ text "secretsmanager" ++ [colon] := rfl
  have hmiddle : text ":secret:" = [colon] ++ text "secret" ++ [colon] := rfl
  rw [arn, hhead, hmiddle, show text ":" = [colon] from rfl]
  simp [List.intercalate]

theorem resourceName_eq_intercalate (project id : Bytes) : resourceName project id =
    [slash].intercalate [text "projects", project, text "secrets", id] := by
  rw [resourceName, show text "projects/" = text "projects" ++ [slash] from rfl,
    show text "/secrets/" = [slash] ++ text "secrets" ++ [slash] from rfl]
  simp [List.intercalate]

theorem head_splitOn {s first piece : Bytes} {pieces : List Bytes} {sep : UInt8} (h : first ++ [sep] <+: s)
    (hfirst : sep ∉ first) (hs : splitOn s sep = piece :: pieces) : piece = first := by
  obtain ⟨rest, rfl⟩ := h
  rw [List.append_assoc, List.singleton_append, splitOn, List.splitOn_append_cons_self_of_not_mem hfirst] at hs
  exact (List.cons.inj hs).1.symm

theorem resolveAwsPath_eq_ok {secretPath envLocation manifestPath described location : Bytes}
    (h : resolveAwsPath secretPath envLocation manifestPath described = .ok location) :
    AwsResolves envLocation secretPath location := by
  unfold resolveAwsPath at h
  split_ifs at h with hprefix hname
  · exact Or.inl ⟨isName_iff.mp (by simpa [isAwsSecretName] using hname), (Except.ok.inj h).symm⟩
  · simp only at h
    split at h
    · rename_i first aws secretsmanager region account secret name hsplit
      obtain ⟨_, hgood, h⟩ := Prog.except_bind_eq_ok.mp h
      obtain ⟨_, hregion, hlocation⟩ := Prog.except_bind_eq_ok.mp h
      have hgood := Prog.throwIf_eq_ok hgood
      simp only [not_or, not_not, Bool.not_eq_true', Bool.not_eq_false] at hgood
      obtain ⟨rfl, rfl, haccount, rfl, hname⟩ := hgood
      obtain rfl := Except.ok.inj hlocation
      have hstart : text "arn:" <+: secretPath := by simpa using hprefix
      obtain rfl : first = text "arn" := head_splitOn hstart (by decide) hsplit
      refine Or.inr ⟨account, name, ?_, requireAwsRegion_eq_ok hregion, isAwsAccount_iff.mp haccount,
        isName_iff.mp hname⟩
      rw [arn_eq_intercalate, ← hsplit, splitOn, List.intercalate_splitOn]
    · cases h

theorem resolveGcpPath_eq_ok {secretPath envLocation manifestPath described location : Bytes}
    (h : resolveGcpPath secretPath envLocation manifestPath described = .ok location) :
    GcpResolves envLocation secretPath location := by
  unfold resolveGcpPath at h
  split_ifs at h with hprefix hname
  · exact Or.inl ⟨isName_iff.mp (by simpa [isGcpSecretId] using hname), (Except.ok.inj h).symm⟩
  · simp only at h
    split at h
    · rename_i first project secrets id hsplit
      split_ifs at h with hbad
      simp only [not_or, not_not, Bool.not_eq_true', Bool.not_eq_false] at hbad
      obtain ⟨rfl, hproject, hid⟩ := hbad
      obtain rfl := Except.ok.inj h
      have hstart : text "projects/" <+: secretPath := by simpa using hprefix
      obtain rfl : first = text "projects" := head_splitOn hstart (by decide) hsplit
      refine Or.inr ⟨id, ?_, isGcpProject_iff.mp hproject, isName_iff.mp hid⟩
      rw [resourceName_eq_intercalate, ← hsplit, splitOn, List.intercalate_splitOn]
    · cases h

end Secretov
