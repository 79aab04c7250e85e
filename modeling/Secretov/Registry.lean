import Secretov.ManifestSearch
import Secretov.ManifestTrust

/-! The project registry (manifest.cpp), and what a command reads of the system around it:
where a manifest comes from. -/

namespace Secretov

open LinkTree

def openBrace : UInt8 := 123

def closeBrace : UInt8 := 125

def dollarSign : UInt8 := 36

section

variable (environ : Environ) (s : Bytes)

def varValue (name : Bytes) : Except Error Bytes :=
  if name ≠ text "HOME" ∧ name ≠ text "USER" then
    .error (.runtimeError (text "unsupported variable $\x7b" ++ name ++ text "\x7d (only HOME, USER)"))
  else
    match ((environ (.of name)).map CString.bytes).filter (· ≠ []) with
    | none => .error (.runtimeError (name ++ text " is not set; cannot expand '" ++ s ++ text "'"))
    | some value => .ok value

/-- The rest of `s`, in text or in the name of a variable. -/
def expandFrom : Option Bytes → Bytes → Except Error Bytes
  | none, [] => .ok []
  | some _, [] => .error (.runtimeError (text "unterminated $\x7b in '" ++ s ++ text "'"))
  | none, c :: rest =>
    if c = dollarSign then match rest with
      | [] => return [c]
      | next :: rest' =>
        if next = openBrace then expandFrom (some []) rest' else return c :: (← expandFrom none (next :: rest'))
    else return c :: (← expandFrom none rest)
  | some name, c :: rest => do
    if c = closeBrace then
      let value ← varValue environ s name
      return value ++ (← expandFrom none rest)
    else expandFrom (some (name ++ [c])) rest

def expandVars : Except Error Bytes := expandFrom environ s none s

end

/-- Text is kept, and a variable stands for its value, which is not read again. -/
inductive Expands (environ : Environ) : Bytes → Bytes → Prop
  | done : Expands environ [] []
  | char {c : UInt8} {s out : Bytes} (hno : ¬ [dollarSign, openBrace] <+: c :: s) (h : Expands environ s out) :
      Expands environ (c :: s) (c :: out)
  | var {name s out : Bytes} {value : CString} (hname : name = text "HOME" ∨ name = text "USER")
      (hvalue : environ (.of name) = some value) (hset : value.bytes ≠ []) (h : Expands environ s out) :
      Expands environ (dollarSign :: openBrace :: (name ++ closeBrace :: s)) (value.bytes ++ out)

section

variable {environ : Environ} {s : Bytes}

/-- The rest of a variable's name, and what follows. -/
def ExpandsName (environ : Environ) (name rest out : Bytes) : Prop :=
  ∃ more after value out', rest = more ++ closeBrace :: after ∧
    (name ++ more = text "HOME" ∨ name ++ more = text "USER") ∧ environ (.of (name ++ more)) = some value ∧
      value.bytes ≠ [] ∧ Expands environ after out' ∧ out = value.bytes ++ out'

theorem varValue_eq_ok {name value : Bytes} : varValue environ s name = .ok value ↔
    (name = text "HOME" ∨ name = text "USER") ∧ ∃ v, environ (.of name) = some v ∧ v.bytes ≠ [] ∧
    value = v.bytes := by
  rw [varValue]
  split_ifs with hname
  · exact iff_of_false (fun h => nomatch h) fun h => h.1.elim hname.1 hname.2
  · have hname : name = text "HOME" ∨ name = text "USER" := by tauto
    rw [and_iff_right hname]
    cases hfound : environ (.of name) with
    | none => simp
    | some v =>
      by_cases hset : v.bytes = []
      · simp [hset, Option.filter]
      · simp [hset, Option.filter, eq_comm]

/-- What is read from a position, in text or in a name. -/
def ExpandsFrom (environ : Environ) : Option Bytes → Bytes → Bytes → Prop
  | none => Expands environ
  | some name => ExpandsName environ name

theorem expandFrom_sound {pending : Option Bytes} {rest out : Bytes} :
    expandFrom environ s pending rest = .ok out → ExpandsFrom environ pending rest out := by
  fun_induction expandFrom environ s pending rest generalizing out with
  | case1 =>
    intro h
    obtain rfl := Except.ok.inj h
    exact .done
  | case2 name => exact fun h => nomatch h
  | case3 =>
    intro h
    obtain rfl := Except.ok.inj h
    exact .char (fun hprefix => by simpa using hprefix.length_le) .done
  | case4 rest ih =>
    intro h
    obtain ⟨more, after, value, out', rfl, hname, hvalue, hset, hafter, rfl⟩ := ih h
    exact .var hname hvalue hset hafter
  | case5 next rest hnext ih =>
    intro h
    obtain ⟨out', hrest, h⟩ := Prog.except_bind_eq_ok.mp h
    obtain rfl := Except.ok.inj h
    exact .char (fun hprefix => hnext (by simpa [eq_comm] using hprefix)) (ih hrest)
  | case6 c rest hc ih =>
    intro h
    obtain ⟨out', hrest, h⟩ := Prog.except_bind_eq_ok.mp h
    obtain rfl := Except.ok.inj h
    exact .char (fun hprefix => hc (List.cons_prefix_cons.mp hprefix).1.symm) (ih hrest)
  | case7 name rest ih =>
    intro h
    obtain ⟨value, hvalue, h⟩ := Prog.except_bind_eq_ok.mp h
    obtain ⟨out', hrest, h⟩ := Prog.except_bind_eq_ok.mp h
    obtain rfl := Except.ok.inj h
    obtain ⟨hname, v, hv, hset, rfl⟩ := varValue_eq_ok.mp hvalue
    exact ⟨[], rest, v, out', rfl, by simpa using hname, by simpa using hv, hset, ih hrest, rfl⟩
  | case8 name c rest hc ih =>
    intro h
    obtain ⟨more, after, value, out', rfl, hname, hvalue, hset, hafter, rfl⟩ := ih h
    rw [List.append_assoc] at hname hvalue
    exact ⟨c :: more, after, value, out', rfl, hname, hvalue, hset, hafter, rfl⟩

theorem expandFrom_char {c : UInt8} {rest : Bytes} (hno : ¬ [dollarSign, openBrace] <+: c :: rest) :
    expandFrom environ s none (c :: rest) = do return c :: (← expandFrom environ s none rest) := by
  cases rest with
  | nil => exact ite_self _
  | cons next rest =>
    rw [expandFrom]
    split_ifs with hc hnext
    · exact absurd ⟨rest, by rw [hc, hnext]; rfl⟩ hno
    · rfl
    · rfl

theorem expandFrom_complete {rest out : Bytes} (h : Expands environ rest out) :
    expandFrom environ s none rest = .ok out := by
  induction h with
  | done => rfl
  | char hno _ ih =>
    rw [expandFrom_char hno, ih]
    rfl
  | @var name rest out value hname hvalue hset _ ih =>
    have hfound : varValue environ s name = .ok value.bytes :=
        varValue_eq_ok.mpr ⟨hname, value, hvalue, hset, rfl⟩
    rcases hname with rfl | rfl
    · change (do return (← varValue environ s (text "HOME")) ++ (← expandFrom environ s none rest)) = _
      rw [hfound, ih]
      rfl
    · change (do return (← varValue environ s (text "USER")) ++ (← expandFrom environ s none rest)) = _
      rw [hfound, ih]
      rfl

/-- Exactly what a text expands to, whatever bytes the values have. -/
theorem expandVars_eq_ok_iff {out : Bytes} : expandVars environ s = .ok out ↔ Expands environ s out :=
  ⟨expandFrom_sound, expandFrom_complete⟩

end

/-- A process: the files, accounts and variables that it sees, and yaml-cpp. `accessFault` is
an error of `access` that does not come from its path. -/
structure Process where
  fs : FileTree
  host : Host
  environ : Environ
  registry : Bytes
  accessFault : Bytes → Bool
  yaml : YamlCpp
  badSubscript : Yaml → Bytes → Bytes

namespace Process

variable (p : Process)

/-- `access` with `F_OK`. -/
def accessible (path : Bytes) : Bool :=
  !p.accessFault path && path ≠ [] && (p.fs.resolve (parsePath path) >>= p.fs.nodeAt).isOk

/-- `YAML::Exception`s are told with the registry's path. -/
def inRegistry {α : Type} (r : Except Thrown α) : Except Thrown α :=
  r.mapError fun
    | .yaml what => .runtimeError (text "registry '" ++ p.registry ++ text "': " ++ what)
    | e => e

def loadRegistry : Except Thrown Yaml := do
  if p.accessible p.registry then
    let contents ← (p.fs.readManifestText p.host p.registry (text "registry")).mapError fun e =>
      .runtimeError e.what
    p.inRegistry ((p.yaml.load contents).mapError .yaml)
  else return .null

/-- `node[key]` -/
def subscript (node : Yaml) (key : Bytes) : Except Thrown (Option Yaml) :=
  if node.isScalar then .error (.yaml (p.badSubscript node key)) else .ok (node.find? key)

def rootSpec (doc : Yaml) (name : Bytes) : Except Thrown (Option Bytes) := do
  match (← p.subscript doc (text "projects")).filter (!·.isNull) with
  | none => return none
  | some projects =>
    Prog.throwIf (!projects.isMap)
      (.runtimeError (text "registry '" ++ p.registry ++ text "': 'projects' must be a mapping"))
    match (projects.find? name).filter (!·.isNull) with
    | none => return none
    | some project => match (project.find? (text "root")).filter (·.isScalar) with
      | none => throw (.runtimeError (text "registry '" ++ p.registry ++ text "': project '" ++ name ++
          text "' has no 'root'"))
      | some root => some <$> p.yaml.asString root

def registryProjectRoot (name : Bytes) : Except Thrown (Option Bytes) := do
  let doc ← p.loadRegistry
  match ← p.inRegistry (p.rootSpec doc name) with
  | none => return none
  | some spec =>
    let root ← (expandVars p.environ spec).mapError fun e => .runtimeError e.what
    Prog.throwIf (!p.accessible (CString.of root).bytes) (.runtimeError (text "project root not found: " ++ root))
    return some root

def writeTarget (item : Yaml) : Except Thrown Bytes := do
  let target ← (if item.isScalar then p.yaml.asString item else .ok [] : Except Thrown Bytes)
  let awsAccount := text "aws-account:" <+: target ∧ isAwsAccount (target.drop 12)
  let gcpProject := text "gcp:" <+: target ∧ isGcpProject (target.drop 4)
  Prog.throwIf (¬ awsAccount ∧ ¬ gcpProject)
    (.runtimeError (text "registry '" ++ p.registry ++ text "': write_targets entry '" ++ target ++
      text "' must be aws-account:<12-digit account> or gcp:<project id>"))
  return target

def registryWriteTargets : Except Thrown (List Bytes) := do
  let doc ← p.loadRegistry
  p.inRegistry do
    match (← p.subscript doc (text "write_targets")).filter (!·.isNull) with
    | none => return []
    | some (.sequence items) => items.mapM p.writeTarget
    | some _ => throw (.runtimeError (text "registry '" ++ p.registry ++
        text "': 'write_targets' must be a list"))

/-- The contents of the files, by their real paths. -/
def files : ManifestFiles := fun real =>
  match p.fs.openFile real with
  | .ok (.leaf file) => (readAll [] file.reads).toOption
  | _ => none

/-- What the commands read around them. -/
def surroundings (rest : ExecSurroundings) : ExecSurroundings := { rest with
    registryProjectRoot := p.registryProjectRoot
    findManifestUpward := .ok (p.fs.findManifestUpward p.host (rootedPath p.fs.cwd))
    cwd := rootedPath p.fs.cwd
    envOverride := (p.environ (.of kEnvOverrideVar)).map CString.bytes
    canonical := fun path => (reported (text "manifest") path (p.fs.canonical path)).mapError
      (.runtimeError ·.what)
    requireReadable := fun path => do
      let _ ← (p.fs.readManifestText p.host path (text "manifest")).mapError (Thrown.runtimeError ·.what)
      return ()
    registry := p.registry }

end Process

/-- What `path` leads to, through any links, is a file of ours that nobody else may write,
and so are its directory and the one of the path's last name. -/
def FileTree.Vouched (fs : FileTree) (host : Host) (noun path contents : Bytes) : Prop :=
  ∃ dirs file, fs.Way path dirs file ∧ file.regular = true ∧ readAll [] file.reads = .ok contents ∧
    requireTrusted host path file.info noun false = .ok () ∧
    ∀ dir, dirs.head? = some dir ∨ dirs.getLast? = some dir → fs.DirPasses host noun dir

namespace Process

variable (p : Process)

def RegisteredAs (doc : Yaml) (name spec : Bytes) : Prop :=
  ∃ projects project, doc.find? (text "projects") = some projects ∧ projects.find? name = some project ∧
    project.find? (text "root") = some (.scalar spec)

/-- Where a command finds its manifest. -/
inductive Names : Option Bytes → Bytes → Prop
  | upward {dir : List FileName} (h : p.fs.NearestManifest p.host p.fs.cwd dir) :
      Names none (rootedPath (dir ++ [.manifest]))
  | registered {name contents spec root : Bytes} {doc : Yaml}
      (hregistry : p.fs.Vouched p.host (text "registry") p.registry contents)
      (hdoc : p.yaml.load contents = .ok doc)
      (hspec : RegisteredAs doc name spec) (hroot : Expands p.environ spec root) :
      Names (some name) (root ++ slash :: kManifestFileName)

/-- `aws-account:<account>` or `gcp:<project>` -/
def WriteTarget (target : Bytes) : Prop :=
  (∃ account, target = text "aws-account:" ++ account ∧ AwsAccount account) ∨
    ∃ project, target = text "gcp:" ++ project ∧ GcpProject project

/-- A manifest from the place that the command names, which is vouched for. -/
def Vouches (project : Option Bytes) (m : Manifest) : Prop :=
  ∃ path contents, p.Names project path ∧ p.fs.Vouched p.host (text "manifest") path contents ∧
    parseManifest p.yaml contents path = .ok m ∧ ∀ name, project = some name → m.project = name

end Process

/-- What is opened under the names of a directory or file is that. -/
theorem FileTree.openFile_names {fs : FileTree} {names : List FileName} {found node : Node FileName FileInfo Leaf}
    (hnode : fs.entries.node names = some found) (hlink : ∀ target, found ≠ .link target)
    (h : fs.openFile (rootedPath names) = .ok node) : node = found := by
  obtain ⟨_, -, h⟩ := Prog.except_bind_eq_ok.mp h
  rw [parsePath_rootedPath] at h
  rcases List.eq_nil_or_concat' names with rfl | ⟨above, x, rfl⟩
  · obtain ⟨goal, hgoal, h⟩ := Prog.except_bind_eq_ok.mp h
    obtain rfl := (resolve_eq_ok hgoal).unique (.done : fs.entries.Leads 0 [] [] [])
    exact (Option.some.inj (hnode.symm.trans (nodeAt_eq_ok h))).symm
  · rw [List.map_append] at h
    simp only [List.map_cons, List.map_nil, List.getLast?_concat, List.dropLast_concat] at h
    obtain ⟨dir, hdir, h⟩ := Prog.except_bind_eq_ok.mp h
    split_ifs at h
    obtain ⟨found', hfound, h⟩ := Prog.except_bind_eq_ok.mp h
    have hsame : dir = above := names_lead (resolve_eq_ok hdir) (by rw [hnode]; exact Option.some_ne_none _)
    have hfound := nodeAt_eq_ok hfound
    rw [hsame, hnode] at hfound
    obtain rfl := Option.some.inj hfound
    cases found with
    | link target => exact absurd rfl (hlink target)
    | directory info => exact (Except.ok.inj h).symm
    | leaf file => exact (Except.ok.inj h).symm

/-- Whatever is read as a manifest or registry is vouched for. -/
theorem FileTree.vouched_of_read {fs : FileTree} {host : Host} {path noun contents : Bytes} {info : FileInfo}
    (hcwd : fs.entries.node fs.cwd = some (.directory info))
    (h : fs.readManifestText host path noun = .ok contents) : fs.Vouched host noun path contents := by
  have hread := h
  obtain ⟨real, hreal, h⟩ := Prog.except_bind_eq_ok.mp h
  obtain ⟨_, -, h⟩ := Prog.except_bind_eq_ok.mp h
  obtain ⟨_, -, h⟩ := Prog.except_bind_eq_ok.mp h
  obtain ⟨node, hopen, h⟩ := Prog.except_bind_eq_ok.mp h
  obtain ⟨_, -, h⟩ := Prog.except_bind_eq_ok.mp h
  obtain ⟨goal, rfl, hgoal⟩ := canonical_eq_ok (Prog.mapError_eq_ok hreal)
  have hopen := Prog.mapError_eq_ok hopen
  obtain ⟨_, hstart⟩ := @Entries.directory_start _ _ _ fs.entries fs.cwd (parsePath path) info hcwd
  rcases hgoal.found hstart with ⟨_, hdirectory⟩ | ⟨file, hleaf⟩
  · obtain rfl := openFile_names hdirectory (by simp) hopen
    cases h
  · obtain rfl := openFile_names hleaf (by simp) hopen
    obtain ⟨_, hregular, h⟩ := Prog.except_bind_eq_ok.mp h
    obtain ⟨_, -, h⟩ := Prog.except_bind_eq_ok.mp h
    obtain ⟨first, x, dir, dirs, limit, hsteps, hfirst, hchain⟩ := hgoal.chain hstart hleaf
    obtain ⟨hfile, hdir, last, hlast, hpasses⟩ := readManifestText_checks hsteps hfirst hchain hread
    refine ⟨dirs, file, ⟨first, x, limit, dir, hsteps, hfirst, hchain⟩, by
      simpa using Prog.throwIf_eq_ok hregular, Prog.mapError_eq_ok h, hfile, ?_⟩
    rintro other (hhead | hother)
    · rw [hchain.head] at hhead
      obtain rfl := Option.some.inj hhead
      exact hdir
    · obtain rfl := Option.some.inj (hlast.symm.trans hother)
      exact hpasses

namespace Process

variable {p : Process} {rest : ExecSurroundings}

theorem files_of_read {path real contents : Bytes}
    (hreal : reported (text "manifest") path (p.fs.canonical path) = .ok real)
    (hread : p.fs.readManifestText p.host path (text "manifest") = .ok contents) :
    p.files real = some contents := by
  obtain ⟨real', hreal', hread⟩ := Prog.except_bind_eq_ok.mp hread
  obtain rfl := Except.ok.inj (hreal.symm.trans hreal')
  obtain ⟨_, -, hread⟩ := Prog.except_bind_eq_ok.mp hread
  obtain ⟨_, -, hread⟩ := Prog.except_bind_eq_ok.mp hread
  obtain ⟨node, hopen, hread⟩ := Prog.except_bind_eq_ok.mp hread
  obtain ⟨_, -, hread⟩ := Prog.except_bind_eq_ok.mp hread
  cases node with
  | directory | link => cases hread
  | leaf file =>
    obtain ⟨_, -, hread⟩ := Prog.except_bind_eq_ok.mp hread
    obtain ⟨_, -, hread⟩ := Prog.except_bind_eq_ok.mp hread
    rw [files, Prog.mapError_eq_ok hopen]
    dsimp only
    rw [Prog.mapError_eq_ok hread]
    rfl

/-- The commands' `read_manifest_text` is the one of the tree. -/
theorem readManifestText_surroundings (path : Bytes) :
    Secretov.readManifestText (p.surroundings rest).toSurroundings p.files path =
      (p.fs.readManifestText p.host path (text "manifest")).mapError (.runtimeError ·.what) := by
  have hcanonical : (p.surroundings rest).canonical path =
    (reported (text "manifest") path (p.fs.canonical path)).mapError (.runtimeError ·.what) := rfl
  have hreadable : (p.surroundings rest).requireReadable path = (do
    let _ ← (p.fs.readManifestText p.host path (text "manifest")).mapError (Thrown.runtimeError ·.what)
    return ()) := rfl
  rw [Secretov.readManifestText, hcanonical, hreadable]
  cases hreal : reported (text "manifest") path (p.fs.canonical path) with
  | error e =>
    have hread : p.fs.readManifestText p.host path (text "manifest") = .error e := by
      rw [FileTree.readManifestText, hreal]
      rfl
    rw [hread]
    rfl
  | ok real =>
    cases hread : p.fs.readManifestText p.host path (text "manifest") with
    | error e => rfl
    | ok contents =>
      have hfile := files_of_read hreal hread
      simp only [bind, Except.bind, Except.mapError, pure, Except.pure, hfile]

theorem loadRegistry_vouched {info : FileInfo} (hcwd : p.fs.entries.node p.fs.cwd = some (.directory info))
    {doc : Yaml} (h : p.loadRegistry = .ok doc) : doc = .null ∨ ∃ contents,
      p.fs.Vouched p.host (text "registry") p.registry contents ∧ p.yaml.load contents = .ok doc := by
  rw [loadRegistry] at h
  split_ifs at h
  · obtain ⟨contents, hread, h⟩ := Prog.except_bind_eq_ok.mp h
    exact .inr ⟨contents, FileTree.vouched_of_read hcwd (Prog.mapError_eq_ok hread),
      Prog.mapError_eq_ok (Prog.mapError_eq_ok h)⟩
  · exact .inl (Except.ok.inj h).symm

theorem rootSpec_eq_ok {doc : Yaml} {name spec : Bytes} (h : p.rootSpec doc name = .ok (some spec)) :
    RegisteredAs doc name spec := by
  obtain ⟨found, hfound, h⟩ := Prog.except_bind_eq_ok.mp h
  rw [subscript] at hfound
  split_ifs at hfound
  obtain rfl := Except.ok.inj hfound
  cases hprojects : (doc.find? (text "projects")).filter (!·.isNull) with
  | none => rw [hprojects] at h; cases h
  | some projects =>
    rw [hprojects] at h
    obtain ⟨_, -, h⟩ := Prog.except_bind_eq_ok.mp h
    cases hproject : (projects.find? name).filter (!·.isNull) with
    | none => rw [hproject] at h; cases h
    | some project =>
      rw [hproject] at h
      dsimp only at h
      cases hroot : (project.find? (text "root")).filter (·.isScalar) with
      | none => rw [hroot] at h; cases h
      | some root =>
        rw [hroot] at h
        obtain ⟨hfoundRoot, hscalar⟩ := Option.filter_eq_some_iff.mp hroot
        obtain ⟨spec', hspec, h⟩ := Prog.except_bind_eq_ok.mp h
        obtain rfl := Option.some.inj (Except.ok.inj h)
        obtain rfl := YamlCpp.asString_of_isScalar hscalar hspec
        have hprojects := (Option.filter_eq_some_iff.mp hprojects).1
        exact ⟨projects, project, hprojects, (Option.filter_eq_some_iff.mp hproject).1, hfoundRoot⟩

theorem registryProjectRoot_eq_ok {info : FileInfo} (hcwd : p.fs.entries.node p.fs.cwd = some (.directory info))
    {name root : Bytes} (h : p.registryProjectRoot name = .ok (some root)) :
    p.Names (some name) (root ++ slash :: kManifestFileName) := by
  obtain ⟨doc, hdoc, h⟩ := Prog.except_bind_eq_ok.mp h
  obtain ⟨found, hspec, h⟩ := Prog.except_bind_eq_ok.mp h
  cases found with
  | none => cases h
  | some spec =>
    obtain ⟨root', hroot, h⟩ := Prog.except_bind_eq_ok.mp h
    obtain ⟨_, -, h⟩ := Prog.except_bind_eq_ok.mp h
    obtain rfl := Option.some.inj (Except.ok.inj h)
    have hspec := rootSpec_eq_ok (Prog.mapError_eq_ok hspec)
    have hroot := expandFrom_sound (Prog.mapError_eq_ok hroot)
    rcases loadRegistry_vouched hcwd hdoc with rfl | ⟨contents, hvouched, hload⟩
    · obtain ⟨projects, -, hprojects, -⟩ := hspec
      cases hprojects
    · exact .registered hvouched hload hspec hroot

theorem resolveManifest_vouches {info : FileInfo} (hcwd : p.fs.entries.node p.fs.cwd = some (.directory info))
    {project : Option Bytes} {m : Manifest}
    (h : resolveManifest p.yaml (p.surroundings rest) p.files project = .ok m) : p.Vouches project m := by
  have hload : ∀ path, loadManifest p.yaml (p.surroundings rest) p.files path = .ok m → ∃ contents,
      p.fs.Vouched p.host (text "manifest") path contents ∧ parseManifest p.yaml contents path = .ok m := by
    intro path h
    obtain ⟨contents, hread, h⟩ := Prog.except_bind_eq_ok.mp h
    rw [readManifestText_surroundings] at hread
    exact ⟨contents, FileTree.vouched_of_read hcwd (Prog.mapError_eq_ok hread), h⟩
  cases project with
  | none =>
    obtain ⟨found, hfound, h⟩ := Prog.except_bind_eq_ok.mp h
    cases found with
    | none => cases h
    | some path =>
      obtain ⟨dir, hnearest, rfl⟩ := (FileTree.findManifestUpward_eq_some_iff hcwd).mp (Except.ok.inj hfound)
      obtain ⟨contents, hvouched, hparse⟩ := hload _ h
      exact ⟨_, contents, .upward hnearest, hvouched, hparse, fun name hname => nomatch hname⟩
  | some name =>
    obtain ⟨found, hfound, h⟩ := Prog.except_bind_eq_ok.mp h
    cases found with
    | none => cases h
    | some root =>
      obtain ⟨m', hm', h⟩ := Prog.except_bind_eq_ok.mp h
      obtain ⟨_, hname, h⟩ := Prog.except_bind_eq_ok.mp h
      obtain rfl := Except.ok.inj h
      obtain ⟨contents, hvouched, hparse⟩ := hload _ hm'
      refine ⟨_, contents, registryProjectRoot_eq_ok hcwd hfound, hvouched, hparse, fun other hother => ?_⟩
      obtain rfl := Option.some.inj hother
      exact not_not.mp (Prog.throwIf_eq_ok hname)

theorem writeTarget_eq_ok {item : Yaml} {target : Bytes} (h : p.writeTarget item = .ok target) :
    item = .scalar target ∧ WriteTarget target := by
  obtain ⟨target', hitem, h⟩ := Prog.except_bind_eq_ok.mp h
  obtain ⟨_, hshape, h⟩ := Prog.except_bind_eq_ok.mp h
  obtain rfl := Except.ok.inj h
  have hshape := Prog.throwIf_eq_ok hshape
  have hform : text "aws-account:" <+: target' ∧ isAwsAccount (target'.drop 12) = true ∨
      text "gcp:" <+: target' ∧ isGcpProject (target'.drop 4) = true := by
    by_contra hno
    exact hshape (not_or.mp hno)
  have htarget : WriteTarget target' := by
    rcases hform with ⟨⟨account, rfl⟩, haccount⟩ | ⟨⟨project, rfl⟩, hproject⟩
    · exact .inl ⟨account, rfl, isAwsAccount_iff.mp haccount⟩
    · exact .inr ⟨project, rfl, isGcpProject_iff.mp hproject⟩
  refine ⟨?_, htarget⟩
  split_ifs at hitem with hscalar
  · exact YamlCpp.asString_of_isScalar hscalar hitem
  · obtain rfl := Except.ok.inj hitem
    rcases htarget with ⟨account, hempty, -⟩ | ⟨project, hempty, -⟩
    · cases hempty
    · cases hempty

/-- The write targets are those that a vouched registry lists, in its order, and each of them
names an account or a project. -/
theorem write_targets_vouched {info : FileInfo} (hcwd : p.fs.entries.node p.fs.cwd = some (.directory info))
    {targets : List Bytes} (h : p.registryWriteTargets = .ok targets) : targets = [] ∨ ∃ contents doc,
      p.fs.Vouched p.host (text "registry") p.registry contents ∧ p.yaml.load contents = .ok doc ∧
        doc.find? (text "write_targets") = some (.sequence (targets.map .scalar)) ∧
        ∀ t ∈ targets, WriteTarget t := by
  obtain ⟨doc, hdoc, h⟩ := Prog.except_bind_eq_ok.mp h
  obtain ⟨found, hfound, h⟩ := Prog.except_bind_eq_ok.mp (Prog.mapError_eq_ok h)
  rw [subscript] at hfound
  split_ifs at hfound
  obtain rfl := Except.ok.inj hfound
  cases hlisted : (doc.find? (text "write_targets")).filter (!·.isNull) with
  | none =>
    rw [hlisted] at h
    exact .inl (Except.ok.inj h).symm
  | some listed =>
    rw [hlisted] at h
    have hlisted := (Option.filter_eq_some_iff.mp hlisted).1
    cases listed with
    | null | scalar | map => cases h
    | sequence items =>
      have hitems := Prog.except_mapM_map (fun a b hb => (writeTarget_eq_ok hb).1) h
      rw [List.map_id'] at hitems
      rcases loadRegistry_vouched hcwd hdoc with rfl | ⟨contents, hvouched, hload⟩
      · cases hlisted
      · refine .inr ⟨contents, doc, hvouched, hload, hitems ▸ hlisted, fun t ht => ?_⟩
        obtain ⟨item, -, hitem⟩ := (Prog.except_mapM_eq_ok h).2 t ht
        exact (writeTarget_eq_ok hitem).2

end Process

def FileName.registry : FileName := ⟨text "r", by decide⟩

def registryText : Bytes :=
  text "projects:\n  p:\n    root: \"$\x7bHOME\x7d\"\nwrite_targets:\n  - gcp:acme-secrets\n"

def registryTree : Yaml :=
  .map [(.ofText "projects", .map [(.ofText "p", .map [(.ofText "root", .ofText "$\x7bHOME\x7d")])]),
    (.ofText "write_targets", .sequence [.ofText "gcp:acme-secrets"])]

/-- A registered project in the home directory. -/
def sampleProcess : Process where
  fs := { nestedFiles with
    entries := Entries.ofList [([], .directory rootDirectory), ([.home], .directory privateDirectory),
      ([.home, .manifest], .leaf sampleLeaf),
      ([.home, .registry], .leaf { sampleLeaf with reads := [.bytes registryText] }),
      ([.home, .work], .directory privateDirectory)] (fun _ => true) (by decide) }
  host := sampleHost
  environ name := if name = .of (text "HOME") then some (.of (text "/home")) else none
  registry := text "/home/r"
  accessFault _ := false
  yaml :=
    { load c := if c = registryText then .ok registryTree else
        (loadOnly (text "name: p\n") (.map [(.ofText "name", .ofText "p")])).load c
      badConversion _ := text "bad conversion" }
  badSubscript _ _ := text "operator[] call on a scalar"

theorem write_targets_vouched_sample :
    sampleProcess.registryWriteTargets = .ok [text "gcp:acme-secrets"] ∧
      Process.WriteTarget (text "gcp:acme-secrets") := by
  have htargets : sampleProcess.registryWriteTargets = .ok [text "gcp:acme-secrets"] := by decide +kernel
  refine ⟨htargets, ?_⟩
  rcases Process.write_targets_vouched rfl htargets with hnone | ⟨contents, doc, -, -, -, hall⟩
  · cases hnone
  · exact hall _ (List.mem_singleton_self _)

end Secretov
