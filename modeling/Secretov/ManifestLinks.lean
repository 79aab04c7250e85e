import Secretov.FilePaths
import Secretov.RequireTrusted

/-! `read_manifest_text` (manifest.cpp) in a directory tree with symbolic links: whose
directories are on the way to a manifest, and which of them are checked. -/

namespace Secretov

open LinkTree

inductive FileRead where
  | bytes (chunk : Bytes)
  | interrupted
  | failed (reason : Bytes)

/-- An entry that is neither a directory nor a link, and what reading it gives until its end. -/
structure Leaf where
  info : FileInfo
  regular : Bool
  reads : List FileRead

inductive Syscall where
  | stat
  | openFile
  | fstat
deriving DecidableEq

/-- The files as the process sees them, with the errors of a call that do not come from its path. -/
structure FileTree where
  entries : Entries FileName FileInfo Leaf
  cwd : List FileName
  linkLimit : Nat
  fault : Syscall → Bytes → Option Bytes
  strerror : Failure → Bytes
  emptyPath : Bytes

def reported {α : Type} (call path : Bytes) (r : Except Bytes α) : Except Error α :=
  r.mapError fun reason => .runtimeError (call ++ text " '" ++ path ++ text "': " ++ reason)

def readAll : Bytes → List FileRead → Except Bytes Bytes
  | buf, [] => .ok buf
  | buf, .bytes [] :: _ => .ok buf
  | buf, .bytes chunk :: reads => readAll (buf ++ chunk) reads
  | buf, .interrupted :: reads => readAll buf reads
  | _, .failed reason :: _ => .error reason

namespace FileTree

variable (fs : FileTree)

def unlessFault (call : Syscall) (path : Bytes) : Except Bytes Unit :=
  match fs.fault call path with
  | some reason => .error reason
  | none => .ok ()

def resolve (p : Pathname FileName) : Except Bytes (List FileName) :=
  (fs.entries.resolve fs.linkLimit (p.start fs.cwd) p.steps).mapError fs.strerror

def nodeAt (names : List FileName) : Except Bytes (Node FileName FileInfo Leaf) :=
  match fs.entries.node names with
  | some node => .ok node
  | none => .error (fs.strerror .noEntry)

def canonical (path : Bytes) : Except Bytes Bytes :=
  if path = [] then .error fs.emptyPath else rootedPath <$> fs.resolve (parsePath path)

/-- `stat`, which follows links. -/
def stat (path : Bytes) : Except Bytes (Node FileName FileInfo Leaf) := do
  fs.unlessFault .stat path
  let goal ← fs.resolve (parsePath path)
  fs.nodeAt goal

/-- `open` with `O_NOFOLLOW`: only the last name may not be a link. -/
def openFile (path : Bytes) : Except Bytes (Node FileName FileInfo Leaf) := do
  fs.unlessFault .openFile path
  let p := parsePath path
  match p.steps.getLast? with
  | some (.name x) =>
    let dir ← fs.resolve ⟨p.absolute, p.steps.dropLast⟩
    if fs.entries.searchable dir then
      let node ← fs.nodeAt (dir ++ [x])
      refuseLink node
    else .error (fs.strerror .denied)
  | _ =>
    let goal ← fs.resolve p
    fs.nodeAt goal
where
  refuseLink : Node FileName FileInfo Leaf → Except Bytes (Node FileName FileInfo Leaf)
    | .link _ => .error (fs.strerror .tooManyLinks)
    | node => .ok node

def requireTrustedDir (host : Host) (dir noun : Bytes) : Except Error Bytes := do
  let dirPath := if dir = [] then text "." else dir
  let node ← reported (text "stat") dirPath (fs.stat dirPath)
  match node with
  | .directory info =>
    requireTrusted host dirPath info noun true
    return dirPath
  | _ => throw (.runtimeError (noun ++ text " directory '" ++ dirPath ++ text "' is not a directory"))

def readManifestText (host : Host) (path noun : Bytes) : Except Error Bytes := do
  let real ← reported noun path (fs.canonical path)
  let _ ← fs.requireTrustedDir host (parentPath path) noun
  checkTarget real
  let node ← reported (text "open") path (fs.openFile real)
  reported (text "stat") path (fs.unlessFault .fstat path)
  readOpened node
where
  checkTarget (real : Bytes) : Except Error Unit :=
    if parsePath real ≠ parsePath path then do
      let _ ← fs.requireTrustedDir host (parentPath real) noun
      return ()
    else .ok ()
  readOpened : Node FileName FileInfo Leaf → Except Error Bytes
    | .leaf file => do
      Prog.throwIf (!file.regular) (.runtimeError (noun ++ text " '" ++ path ++ text "' is not a regular file"))
      requireTrusted host path file.info noun false
      reported (text "read") path (readAll [] file.reads)
    | _ => .error (.runtimeError (noun ++ text " '" ++ path ++ text "' is not a regular file"))

/-- The way to a file: a name in a directory, or a chain of links from it. -/
def Way (path : Bytes) (dirs : List (List FileName)) (file : Leaf) : Prop :=
  ∃ init x limit dir, (parsePath path).steps = init ++ [.name x] ∧
    fs.entries.Leads limit ((parsePath path).start fs.cwd) init dir ∧ fs.entries.Chain dir x dirs file

/-- A check of the directory, under whatever path, accepts it. -/
def DirPasses (host : Host) (noun : Bytes) (dir : List FileName) : Prop :=
  ∃ info path, fs.entries.node dir = some (.directory info) ∧ requireTrusted host path info noun true = .ok ()

/-- The file passes, and so does every directory that holds a name or link of the way to it. -/
def WayPasses (host : Host) (path noun : Bytes) (dirs : List (List FileName)) (file : Leaf) : Prop :=
  requireTrusted host path file.info noun false = .ok () ∧ ∀ dir ∈ dirs, fs.DirPasses host noun dir

variable {fs} {host : Host} {path noun : Bytes}

theorem resolve_eq_ok {p : Pathname FileName} {goal : List FileName} (h : fs.resolve p = .ok goal) :
    fs.entries.Leads fs.linkLimit (p.start fs.cwd) p.steps goal :=
  Entries.leads_of_resolve (Prog.mapError_eq_ok h)

theorem nodeAt_eq_ok {names : List FileName} {node : Node FileName FileInfo Leaf}
    (h : fs.nodeAt names = .ok node) : fs.entries.node names = some node := by
  rw [nodeAt] at h
  cases hnode : fs.entries.node names with
  | none => simp [hnode] at h
  | some found =>
    rw [hnode] at h
    exact congrArg some (Except.ok.inj h)

theorem stat_eq_ok {node : Node FileName FileInfo Leaf} (h : fs.stat path = .ok node) :
    ∃ goal, fs.entries.Leads fs.linkLimit ((parsePath path).start fs.cwd) (parsePath path).steps goal ∧
      fs.entries.node goal = some node := by
  obtain ⟨_, -, h⟩ := Prog.except_bind_eq_ok.mp h
  obtain ⟨goal, hgoal, h⟩ := Prog.except_bind_eq_ok.mp h
  exact ⟨goal, resolve_eq_ok hgoal, nodeAt_eq_ok h⟩

/-- A directory that is accepted is the one its path leads to. -/
theorem requireTrustedDir_eq_ok {dir dirPath : Bytes} (h : fs.requireTrustedDir host dir noun = .ok dirPath) :
    dirPath = (if dir = [] then text "." else dir) ∧ ∃ goal, fs.DirPasses host noun goal ∧
      fs.entries.Leads fs.linkLimit ((parsePath dirPath).start fs.cwd) (parsePath dirPath).steps goal := by
  obtain ⟨node, hstat, h⟩ := Prog.except_bind_eq_ok.mp h
  obtain ⟨goal, hleads, hnode⟩ := stat_eq_ok (Prog.mapError_eq_ok hstat)
  cases node with
  | link target => cases h
  | leaf info => cases h
  | directory info =>
    obtain ⟨_, htrusted, h⟩ := Prog.except_bind_eq_ok.mp h
    obtain rfl := Except.ok.inj h
    exact ⟨rfl, goal, ⟨info, _, hnode, htrusted⟩, hleads⟩

/-- The directory that is checked for a name is the one it is in. -/
theorem requireTrustedDir_parentPath {init : List (Step FileName)} {x : FileName} {dirPath : Bytes}
    (hsteps : (parsePath path).steps = init ++ [.name x])
    (h : fs.requireTrustedDir host (parentPath path) noun = .ok dirPath) :
    ∃ goal limit, fs.DirPasses host noun goal ∧
    fs.entries.Leads limit ((parsePath path).start fs.cwd) init goal := by
  obtain ⟨hpath, goal, hpasses, hgoal⟩ := requireTrustedDir_eq_ok h
  refine ⟨goal, fs.linkLimit, hpasses, ?_⟩
  have hparent := parsePath_parentPath hsteps
  by_cases hempty : parentPath path = []
  · -- the parent path of a name alone is empty, and "." is taken for it
    have hnone : parsePath [] = ⟨false, []⟩ := rfl
    have hdot : parsePath (text ".") = ⟨false, [.here]⟩ := rfl
    rw [hempty, hnone] at hparent
    obtain ⟨habsolute, hinit⟩ := Pathname.mk.inj hparent
    rw [hpath, if_pos hempty, hdot] at hgoal
    rw [← hinit, Pathname.start, ← habsolute]
    generalize fs.linkLimit = limit at hgoal ⊢
    cases hgoal with
    | here hgoal => exact hgoal
  · rw [hpath, if_neg hempty, hparent] at hgoal
    exact hgoal

theorem canonical_eq_ok {real : Bytes} (h : fs.canonical path = .ok real) :
    ∃ goal, real = rootedPath goal ∧
      fs.entries.Leads fs.linkLimit ((parsePath path).start fs.cwd) (parsePath path).steps goal := by
  rw [canonical] at h
  split_ifs at h
  cases hgoal : fs.resolve (parsePath path) with
  | error reason => simp [hgoal] at h
  | ok goal =>
    rw [hgoal] at h
    exact ⟨goal, (Except.ok.inj h).symm, resolve_eq_ok hgoal⟩

/-- A name at the end of a path of names from the root is in the directory that they name. -/
theorem names_lead {names : List FileName} {y : FileName} {limit : Nat} {dir : List FileName}
    (hleads : fs.entries.Leads limit [] (names.map .name) dir) (hnode : fs.entries.node (names ++ [y]) ≠ none) :
    dir = names := by
  obtain ⟨info, hinfo⟩ := fs.entries.parent names y hnode
  exact hleads.names hinfo

theorem openFile_rootedPath {names : List FileName} {y : FileName} {file : Leaf}
    {node : Node FileName FileInfo Leaf} (hnode : fs.entries.node (names ++ [y]) = some (.leaf file))
    (h : fs.openFile (rootedPath (names ++ [y])) = .ok node) : node = .leaf file := by
  obtain ⟨_, -, h⟩ := Prog.except_bind_eq_ok.mp h
  rw [parsePath_rootedPath, List.map_append] at h
  simp only [List.map_cons, List.map_nil, List.getLast?_concat, List.dropLast_concat] at h
  obtain ⟨dir, hdir, h⟩ := Prog.except_bind_eq_ok.mp h
  split_ifs at h
  obtain ⟨found, hfound, h⟩ := Prog.except_bind_eq_ok.mp h
  have hsame : dir = names := names_lead (resolve_eq_ok hdir) (by rw [hnode]; exact Option.some_ne_none _)
  have hfound := nodeAt_eq_ok hfound
  rw [hsame, hnode] at hfound
  obtain rfl := Option.some.inj hfound
  exact (Except.ok.inj h).symm

/-- What an accepted manifest was checked for: its file, the directory of the name that was given, and
the directory of the file. -/
theorem readManifestText_checks {contents : Bytes} {init : List (Step FileName)} {x : FileName} {limit : Nat}
    {dir : List FileName} {dirs : List (List FileName)} {file : Leaf}
    (hsteps : (parsePath path).steps = init ++ [.name x])
    (hleads : fs.entries.Leads limit ((parsePath path).start fs.cwd) init dir)
    (hchain : fs.entries.Chain dir x dirs file)
    (h : fs.readManifestText host path noun = .ok contents) :
    requireTrusted host path file.info noun false = .ok () ∧ fs.DirPasses host noun dir ∧
      ∃ last, dirs.getLast? = some last ∧ fs.DirPasses host noun last := by
  obtain ⟨real, hreal, h⟩ := Prog.except_bind_eq_ok.mp h
  obtain ⟨_, hfirst, h⟩ := Prog.except_bind_eq_ok.mp h
  obtain ⟨_, htarget, h⟩ := Prog.except_bind_eq_ok.mp h
  obtain ⟨node, hopen, h⟩ := Prog.except_bind_eq_ok.mp h
  obtain ⟨_, -, h⟩ := Prog.except_bind_eq_ok.mp h
  obtain ⟨checked, _, hdir, hchecked⟩ := requireTrustedDir_parentPath hsteps hfirst
  obtain rfl := hleads.unique hchecked
  obtain ⟨goal, rfl, hgoal⟩ := canonical_eq_ok (Prog.mapError_eq_ok hreal)
  -- the real path is that of the leaf at the chain's end
  rw [hsteps] at hgoal
  obtain ⟨mid, limit', hmid, hname⟩ := hgoal.append
  obtain rfl := hmid.unique hleads
  obtain ⟨last, y, hlast, rfl, hnode⟩ := hchain.leads hname
  have hsome : fs.entries.node (last ++ [y]) ≠ none := by
    rw [hnode]
    exact Option.some_ne_none _
  have hrealSteps : (parsePath (rootedPath (last ++ [y]))).steps = last.map .name ++ [.name y] := by
    rw [parsePath_rootedPath, List.map_append]
    rfl
  obtain rfl := openFile_rootedPath hnode (Prog.mapError_eq_ok hopen)
  obtain ⟨_, -, h⟩ := Prog.except_bind_eq_ok.mp h
  obtain ⟨_, htrusted, -⟩ := Prog.except_bind_eq_ok.mp h
  refine ⟨htrusted, hdir, last, hlast, ?_⟩
  rw [readManifestText.checkTarget] at htarget
  split_ifs at htarget with hother
  · obtain ⟨_, hdirPath, -⟩ := Prog.except_bind_eq_ok.mp htarget
    obtain ⟨checked, _, hpasses, hchecked⟩ := requireTrustedDir_parentPath hrealSteps hdirPath
    rw [parsePath_rootedPath] at hchecked
    rwa [names_lead hchecked hsome] at hpasses
  · -- the path that was given is the real one
    have hsame : parsePath path = ⟨true, last.map .name ++ [.name y]⟩ := by
      rw [← not_not.mp hother, parsePath_rootedPath, List.map_append]
      rfl
    rw [hsame] at hsteps hleads
    obtain ⟨rfl, -⟩ := List.append_inj' hsteps rfl
    rwa [← names_lead hleads hsome]

/-- Every directory on the way to an accepted manifest passes if those of the links in between do: no
other directory is left unchecked. -/
theorem wayPasses_iff {contents : Bytes} {dirs : List (List FileName)}
    {file : Leaf} (hway : fs.Way path dirs file) (h : fs.readManifestText host path noun = .ok contents) :
    fs.WayPasses host path noun dirs file ↔ ∀ dir ∈ dirs.tail.dropLast, fs.DirPasses host noun dir := by
  obtain ⟨init, x, limit, dir, hsteps, hleads, hchain⟩ := hway
  obtain ⟨hfile, hdir, last, hlast, hlastPasses⟩ := readManifestText_checks hsteps hleads hchain h
  have hhead := hchain.head
  constructor
  · intro hpasses other hother
    exact hpasses.2 other (List.mem_of_mem_tail (List.dropLast_subset _ hother))
  · intro hbetween
    refine ⟨hfile, fun other hother => ?_⟩
    rw [hhead] at hother hlast
    rcases List.mem_cons.mp hother with rfl | htail
    · exact hdir
    · have hne : dirs.tail ≠ [] := List.ne_nil_of_mem htail
      have hlast : dirs.tail.getLast hne = last := by
        rw [List.getLast?_cons_of_ne_nil hne, List.getLast?_eq_some_getLast hne] at hlast
        exact Option.some.inj hlast
      rw [← List.dropLast_append_getLast hne, hlast, List.mem_append, List.mem_singleton] at htail
      rcases htail with hmem | rfl
      · exact hbetween other hmem
      · exact hlastPasses

end FileTree

def privateDirectory : FileInfo where
  stat := ⟨1000, 1000, 0o40755⟩
  acl := none
  aclError := none

def openDirectory : FileInfo where
  stat := ⟨1000, 1000, 0o40777⟩
  acl := none
  aclError := none

def sampleLeaf : Leaf where
  info := privateFile
  regular := true
  reads := [.bytes (text "name: "), .interrupted, .bytes (text "p\n"), .bytes []]

def FileName.home : FileName := ⟨text "home", by decide⟩

def FileName.shared : FileName := ⟨text "shared", by decide⟩

def FileName.work : FileName := ⟨text "work", by decide⟩

def FileName.current : FileName := ⟨text "current", by decide⟩

def FileName.manifest : FileName := ⟨text ".secretov.yaml", by decide⟩

/-- Both links in /home lead to the manifest in /work, one of them through a link in /shared. -/
def linkedFiles : FileTree where
  entries := Entries.ofList [([], .directory rootDirectory), ([.work], .directory privateDirectory),
    ([.shared], .directory openDirectory), ([.home], .directory privateDirectory),
    ([.work, .manifest], .leaf sampleLeaf),
    ([.home, .manifest], .link ⟨true, [.name .shared, .name .current]⟩),
    ([.shared, .current], .link ⟨false, [.up, .name .work, .name .manifest]⟩),
    ([.home, .current], .link ⟨true, [.name .work, .name .manifest]⟩)] (fun _ => true) (by decide)
  cwd := [.home]
  linkLimit := 40
  fault _ _ := none
  strerror
    | .noEntry => text "No such file or directory"
    | .notDirectory => text "Not a directory"
    | .tooManyLinks => text "Too many levels of symbolic links"
    | .denied => text "Permission denied"
  emptyPath := text "Invalid argument"

theorem wayPasses_iff_one_link :
    linkedFiles.WayPasses sampleHost (text "current") (text "manifest") [[.home], [.work]] sampleLeaf := by
  have hway : linkedFiles.Way (text "current") [[.home], [.work]] sampleLeaf := by
    refine ⟨[], .current, 0, [.home], by decide +kernel, .done, ?_⟩
    have hsteps : [Step.name FileName.work, .name .manifest] = [.name .work] ++ [.name .manifest] := rfl
    exact @Entries.Chain.link _ _ _ _ 0 _ _ _ _ _ _ _ _ rfl hsteps (.down rfl rfl .done) (.leaf rfl)
  have haccepted : linkedFiles.readManifestText sampleHost (text "current") (text "manifest") =
      .ok (text "name: p\n") := by
    decide +kernel
  exact (FileTree.wayPasses_iff hway haccepted).mpr fun dir hdir => nomatch hdir

/-- The manifest is read through a link that anybody can replace. -/
theorem not_wayPasses_two_links :
    linkedFiles.Way (text "/home/.secretov.yaml") [[.home], [.shared], [.work]] sampleLeaf ∧
      linkedFiles.readManifestText sampleHost (text "/home/.secretov.yaml") (text "manifest") =
        .ok (text "name: p\n") ∧
      ¬ linkedFiles.WayPasses sampleHost (text "/home/.secretov.yaml") (text "manifest")
        [[.home], [.shared], [.work]] sampleLeaf ∧
      linkedFiles.entries.node [.shared] = some (.directory openDirectory) ∧
      MayWrite sampleHost openDirectory ⟨text "bob", 1001, 1001⟩ := by
  have hshared : linkedFiles.entries.node [.shared] = some (.directory openDirectory) := rfl
  refine ⟨?_, by decide +kernel, ?_, hshared, ?_⟩
  · refine ⟨[.name .home], .manifest, 0, [.home], by decide +kernel, .down rfl rfl .done, ?_⟩
    have hfirst : [Step.name FileName.shared, .name .current] = [.name .shared] ++ [.name .current] := rfl
    have hsecond : [Step.up, .name FileName.work, .name .manifest] = [.up, .name .work] ++
        [.name .manifest] := rfl
    have hchain : linkedFiles.entries.Chain [.shared] .current [[.shared], [.work]] sampleLeaf :=
      @Entries.Chain.link _ _ _ _ 0 _ _ _ _ _ _ _ _ rfl hsecond (.up (.down rfl rfl .done)) (.leaf rfl)
    exact @Entries.Chain.link _ _ _ _ 0 _ _ _ _ _ _ _ _ rfl hfirst (.down rfl rfl .done) hchain
  · rintro ⟨-, hpasses⟩
    obtain ⟨info, path, hnode, htrusted⟩ := hpasses [.shared] (by simp)
    obtain rfl := Node.directory.inj (Option.some.inj (hshared.symm.trans hnode))
    have hothers := (requireTrusted_eq_ok htrusted).2.1
    exact absurd hothers (by decide)
  · have hstranger : ¬ InGroup sampleHost ⟨text "bob", 1001, 1001⟩ openDirectory.stat.gid := by
      rintro (hprimary | hlisted)
      · exact absurd hprimary (by decide)
      · exact absurd hlisted (by decide)
    exact Or.inl (Or.inr (Or.inr ⟨by decide, hstranger, by decide⟩))

end Secretov
