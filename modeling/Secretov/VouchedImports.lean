import Secretov.ImportRuns
import Secretov.Registry

/-! Which file `secretov import` writes (client.cpp): the manifest of its place, in a directory
that only we can write. -/

namespace Secretov

open LinkTree

namespace Process

variable (p : Process)

/-- `exists(symlink_status(path))`, which throws on any error but that there is nothing. -/
def linkExists (path : Bytes) : Except Thrown Bool :=
  let thrown (reason : Bytes) : Thrown :=
    .runtimeError (text "filesystem error: symlink_status: " ++ reason ++ text " [" ++ path ++ text "]")
  match p.fs.fault .stat path with
  | some reason => .error (thrown reason)
  | none => match p.fs.entryAt path with
    | .ok _ => .ok true
    | .error .noEntry | .error .notDirectory => .ok false
    | .error failure => .error (thrown (p.fs.strerror failure))

/-- `writeDenied` is what `access` with `W_OK` says against a directory. -/
def requireCreatableManifestDir (writeDenied : Bytes → Option Bytes) (manifestPath : Bytes) :
    Except Thrown Unit := do
  let dirPath ← (p.fs.requireTrustedDir p.host (parentPath manifestPath) (text "manifest")).mapError
    (Thrown.runtimeError ·.what)
  match writeDenied dirPath with
  | some reason => throw (.runtimeError (text "cannot create a manifest in '" ++ dirPath ++ text "': " ++ reason))
  | none => return ()

def importSurroundings (writeDenied : Bytes → Option Bytes) (rest : ExecSurroundings) : Surroundings :=
  { (p.surroundings rest).toSurroundings with
    linkExists := p.linkExists
    requireCreatableManifestDir := p.requireCreatableManifestDir writeDenied }

/-- Where an import looks for its manifest. -/
inductive ImportsAt : Option Bytes → Bytes → Prop
  | named {project : Option Bytes} {path : Bytes} (h : p.Names project path) : ImportsAt project path
  | upward {name path : Bytes} (hunregistered : p.registryProjectRoot name = .ok none) (h : p.Names none path) :
      ImportsAt (some name) path
  | here {name : Bytes} (hunregistered : p.registryProjectRoot name = .ok none)
      (hnone : ∀ dir, ¬ p.fs.NearestManifest p.host p.fs.cwd dir) :
      ImportsAt (some name) (rootedPath p.fs.cwd ++ slash :: kManifestFileName)

/-- The manifest to edit is a vouched one, of the project that the command names, or a new one where
there is none. -/
def LocatedFor (project : Option Bytes) (located : Located) : Prop :=
  p.ImportsAt project located.manifestPath ∧
    ((∃ m, located.manifest = some m ∧
        p.fs.Vouched p.host (text "manifest") located.manifestPath located.manifestText ∧
        parseManifest p.yaml located.manifestText located.manifestPath = .ok m ∧ located.project = m.project ∧
        (∀ name, project = some name → m.project = name) ∧
        p.fs.canonical located.manifestPath = .ok located.writePath) ∨
      (located.manifest = none ∧ located.manifestText = [] ∧ located.writePath = located.manifestPath ∧
        p.linkExists located.manifestPath = .ok false))

variable {p : Process} {writeDenied : Bytes → Option Bytes} {rest : ExecSurroundings} {args : ImportArgs}

theorem locateManifest_eq_ok {info : FileInfo} (hcwd : p.fs.entries.node p.fs.cwd = some (.directory info))
    {path : Bytes} (h : locateManifest args (p.importSurroundings writeDenied rest) = .ok path) :
    p.ImportsAt args.project path := by
  have hupward : ∀ found, p.fs.findManifestUpward p.host (rootedPath p.fs.cwd) = some found →
      p.Names none found := by
    intro found hfound
    obtain ⟨dir, hnearest, rfl⟩ := (FileTree.findManifestUpward_eq_some_iff hcwd).mp hfound
    exact .upward hnearest
  have hsearch : (p.importSurroundings writeDenied rest).findManifestUpward =
      .ok (p.fs.findManifestUpward p.host (rootedPath p.fs.cwd)) := rfl
  rw [locateManifest] at h
  cases hproject : args.project with
  | none =>
    rw [hproject, hsearch] at h
    cases hfound : p.fs.findManifestUpward p.host (rootedPath p.fs.cwd) with
    | none => rw [hfound] at h; cases h
    | some found =>
      rw [hfound] at h
      obtain rfl := Except.ok.inj h
      exact .named (hupward found hfound)
  | some name =>
    rw [hproject] at h
    obtain ⟨root, hroot, h⟩ := Prog.except_bind_eq_ok.mp h
    cases root with
    | some root =>
      obtain rfl := Except.ok.inj h
      exact .named (registryProjectRoot_eq_ok hcwd hroot)
    | none =>
      rw [hsearch] at h
      cases hfound : p.fs.findManifestUpward p.host (rootedPath p.fs.cwd) with
      | none =>
        rw [hfound] at h
        obtain rfl := Except.ok.inj h
        refine .here hroot fun dir hnearest => ?_
        have hsome := (FileTree.findManifestUpward_eq_some_iff hcwd).mpr ⟨dir, hnearest, rfl⟩
        rw [hfound] at hsome
        cases hsome
      | some found =>
        rw [hfound] at h
        obtain rfl := Except.ok.inj h
        exact .upward hroot (hupward found hfound)

theorem loadLocated_eq_ok {info : FileInfo} (hcwd : p.fs.entries.node p.fs.cwd = some (.directory info))
    {located : Located}
    (h : loadLocated p.yaml args (p.importSurroundings writeDenied rest) p.files = .ok located) :
    p.LocatedFor args.project located := by
  obtain ⟨manifestPath, hpath, h⟩ := Prog.except_bind_eq_ok.mp h
  obtain ⟨exists_, hexists, h⟩ := Prog.except_bind_eq_ok.mp h
  have hplace := locateManifest_eq_ok hcwd hpath
  split_ifs at h with hnone
  · obtain rfl := Except.ok.inj h
    have hfalse : exists_ = false := by simpa using hnone
    rw [hfalse] at hexists
    exact ⟨hplace, .inr ⟨rfl, rfl, rfl, hexists⟩⟩
  · obtain ⟨contents, hread, h⟩ := Prog.except_bind_eq_ok.mp h
    obtain ⟨m, hm, h⟩ := Prog.except_bind_eq_ok.mp h
    obtain ⟨_, hnamed, h⟩ := Prog.except_bind_eq_ok.mp h
    obtain ⟨_, -, h⟩ := Prog.except_bind_eq_ok.mp h
    obtain ⟨writePath, hwrite, h⟩ := Prog.except_bind_eq_ok.mp h
    obtain rfl := Except.ok.inj h
    have hread : Secretov.readManifestText (p.surroundings rest).toSurroundings p.files manifestPath =
        .ok contents :=
      hread
    rw [readManifestText_surroundings] at hread
    have hvouched := FileTree.vouched_of_read hcwd (Prog.mapError_eq_ok hread)
    have hreal := Prog.mapError_eq_ok (Prog.mapError_eq_ok hwrite)
    refine ⟨hplace, .inl ⟨m, rfl, hvouched, hm, rfl, fun name hname => ?_, hreal⟩⟩
    have hsame := Prog.throwIf_eq_ok hnamed
    rw [hname] at hsame
    by_contra hother
    exact hsame (by simpa using Ne.symm hother)

theorem requireCreatableManifestDir_eq_ok {path : Bytes}
    (h : p.requireCreatableManifestDir writeDenied path = .ok ()) :
    ∃ dirPath, p.fs.requireTrustedDir p.host (parentPath path) (text "manifest") = .ok dirPath ∧
      writeDenied dirPath = none := by
  obtain ⟨dirPath, hdir, h⟩ := Prog.except_bind_eq_ok.mp h
  refine ⟨dirPath, Prog.mapError_eq_ok hdir, ?_⟩
  cases hdenied : writeDenied dirPath with
  | none => rfl
  | some reason => rw [hdenied] at h; cases h

end Process

section

variable {σ : Type} {ask : Bytes → Bytes → Option Bytes → Prog ClientError σ Json} {c : Channel} {yaml : YamlCpp}
  {args : ImportArgs} {around : Surroundings} {s t : ImportState σ}

theorem storePair_files {target : Target} {stored : List Bytes} {pair : Bytes × Bytes}
    {r : Except ImportError (List Bytes)} (h : storePair ask target stored pair s = (r, t)) :
    t.files = s.files := by
  obtain ⟨rfl, -⟩ | ⟨key, -, h⟩ := refuse_bind h
  · rfl
  obtain ⟨e, -, -, rfl⟩ | ⟨resp, -, h⟩ := importRequest_bind h
  · rfl
  · obtain ⟨-, rfl⟩ := Prod.mk.inj h
    rfl

theorem storePairs_files {target : Target} {pairs : KeyValues} {stored : List Bytes}
    {r : Except ImportError (List Bytes)} (h : pairs.foldlM (storePair ask target) stored s = (r, t)) :
    t.files = s.files := by
  induction pairs generalizing stored s with
  | nil =>
    obtain ⟨-, rfl⟩ := Prod.mk.inj h
    rfl
  | cons pair pairs ih =>
    rw [List.foldlM_cons, Prog.bind_apply] at h
    rcases hpair : storePair ask target stored pair s with ⟨e | next, u⟩
    · rw [hpair] at h
      obtain ⟨-, rfl⟩ := Prod.mk.inj h
      exact storePair_files hpair
    · rw [hpair] at h
      exact (ih h).trans (storePair_files hpair)

/-- An import writes no file but the manifest that it has located, and this after the check of its directory. -/
theorem cmdImport_files {r : Except ImportError Imported} (h : cmdImport ask c yaml args around s = (r, t)) :
    t.files = s.files ∨ ∃ located newText, loadLocated yaml args around s.files = .ok located ∧
      around.requireCreatableManifestDir located.writePath = .ok () ∧
      t.files = Function.update s.files located.writePath (some newText) := by
  rw [cmdImport, Prog.bind_apply] at h
  rcases hchecks : importChecks ask c yaml args around s with ⟨e | plan, u⟩
  · rw [hchecks] at h
    obtain ⟨-, rfl⟩ := Prod.mk.inj h
    rcases importChecks_cases hchecks with ⟨rfl, -⟩ | ⟨_, _, -, -, rfl, -⟩ <;> exact .inl rfl
  obtain ⟨-, _, hr⟩ | ⟨target, pre, htarget, -, rfl, ⟨_, hr⟩ | ⟨_, _, plan', -, -, hplan, hr⟩⟩ :=
    importChecks_cases hchecks
  · cases hr
  · cases hr
  obtain rfl := Except.ok.inj hr
  have hplanned := importPlan_ok hplan
  obtain rfl := hplanned.sameTarget
  rw [hchecks] at h
  dsimp only at h
  rw [Prog.bind_apply] at h
  rcases hpairs : plan.target.pairs.foldlM (storePair ask plan.target) []
    { s with session := (ask (text "getprefix") pre none s.session).2 } with ⟨stored, v⟩
  have hkept := storePairs_files hpairs
  dsimp only at hkept
  rw [hpairs] at h
  cases stored with
  | error e =>
    obtain ⟨-, rfl⟩ := Prod.mk.inj h
    exact .inl hkept
  | ok keys =>
    dsimp only at h
    rw [Prog.bind_apply] at h
    rcases hwrite : (if plan.newText ≠ plan.target.located.manifestText then
      writeManifest around plan.target.located.writePath plan.newText else pure ⟨⟩ : ImportM σ PUnit) v with
        ⟨written, x⟩
    have hx : x.files = s.files ∨ plan.newText ≠ plan.target.located.manifestText ∧
        x.files = Function.update s.files plan.target.located.writePath (some plan.newText) := by
      split_ifs at hwrite with hchanged
      · unfold writeManifest at hwrite
        cases hfails : around.writeFails plan.target.located.writePath with
        | some what =>
          rw [hfails] at hwrite
          obtain ⟨-, rfl⟩ := Prod.mk.inj hwrite
          exact .inl hkept
        | none =>
          rw [hfails] at hwrite
          obtain ⟨-, rfl⟩ := Prod.mk.inj hwrite
          exact .inr ⟨hchanged, by rw [← hkept]⟩
      · obtain ⟨-, rfl⟩ := Prod.mk.inj hwrite
        exact .inl hkept
    have ht : t.files = x.files := by
      rw [hwrite] at h
      cases written with
      | error e =>
        obtain ⟨-, rfl⟩ := Prod.mk.inj h
        rfl
      | ok _ =>
        obtain ⟨rfl, -⟩ | ⟨pre, -, h⟩ := refuse_bind h
        · rfl
        · obtain ⟨-, rfl⟩ := Prod.mk.inj h
          rfl
    rcases hx with hsame | ⟨hchanged, hnew⟩
    · exact .inl (ht.trans hsame)
    · exact .inr ⟨plan.target.located, plan.newText, (importTarget_ok htarget).located,
        hplanned.creatable hchanged, ht.trans hnew⟩

end

/-- An import changes no file, or one: the manifest of its place, a vouched one or a new one, in a
directory that passes the checks. -/
theorem import_writes_vouched {p : Process} {info : FileInfo}
    (hcwd : p.fs.entries.node p.fs.cwd = some (.directory info)) {writeDenied : Bytes → Option Bytes}
    {rest : ExecSurroundings} {args : ImportArgs} {σ : Type}
    {ask : Bytes → Bytes → Option Bytes → Prog ClientError σ Json} {c : Channel} {s t : ImportState σ}
    (hfiles : s.files = p.files) {r : Except ImportError Imported}
    (h : cmdImport ask c p.yaml args (p.importSurroundings writeDenied rest) s = (r, t)) :
    t.files = s.files ∨ ∃ located newText dirPath dir, p.LocatedFor args.project located ∧
      t.files = Function.update s.files located.writePath (some newText) ∧
      p.fs.requireTrustedDir p.host (parentPath located.writePath) (text "manifest") = .ok dirPath ∧
      p.fs.DirPasses p.host (text "manifest") dir ∧
      p.fs.entries.Leads p.fs.linkLimit ((parsePath dirPath).start p.fs.cwd) (parsePath dirPath).steps dir := by
  rcases cmdImport_files h with hsame | ⟨located, newText, hlocated, hcreatable, hnew⟩
  · exact .inl hsame
  · rw [hfiles] at hlocated
    obtain ⟨dirPath, hdir, -⟩ := Process.requireCreatableManifestDir_eq_ok hcreatable
    obtain ⟨-, dir, hpasses, hleads⟩ := FileTree.requireTrustedDir_eq_ok hdir
    exact .inr ⟨located, newText, dirPath, dir, Process.loadLocated_eq_ok hcwd hlocated, hnew, hdir, hpasses,
      hleads⟩

/-- No manifest yet, in a working directory of ours. -/
def importProcess : Process :=
  { sampleProcess with
    fs := { nestedFiles with
      entries := Entries.ofList [([], .directory rootDirectory), ([.home], .directory privateDirectory),
        ([.home, .work], .directory privateDirectory)] (fun _ => true) (by decide) }
    yaml := loadOnly importedText importedTree }

def importedBelow : Except ImportError Imported × ImportState (Session (storeFormat taggedBoxes)) :=
  cmdImport importChannel.request importChannel importProcess.yaml importArgs
    (importProcess.importSurroundings (fun _ => none) { importSurroundings with registry := text "r" })
      ⟨importStart.session, importProcess.files⟩

theorem import_writes_vouched_sample : ∃ located dir, importProcess.LocatedFor (some (text "p")) located ∧
    located.writePath = text "/home/work/.secretov.yaml" ∧
      importProcess.fs.DirPasses sampleHost (text "manifest") dir := by
  have hrun : importedBelow.2.files (text "/home/work/.secretov.yaml") = some importedText ∧
      importProcess.files (text "/home/work/.secretov.yaml") = none := by
    decide +kernel
  rcases himport : importedBelow with ⟨r, t⟩
  rw [himport] at hrun
  obtain ⟨hwritten, hbefore⟩ := hrun
  rw [importedBelow] at himport
  rcases import_writes_vouched rfl rfl himport with hsame | ⟨located, newText, _, dir, hlocated, hnew, -,
    hpasses, -⟩
  · have hsame : t.files = importProcess.files := hsame
    rw [hsame, hbefore] at hwritten
    cases hwritten
  · refine ⟨located, dir, hlocated, ?_, hpasses⟩
    by_contra hother
    rw [hnew, Function.update_of_ne (Ne.symm hother)] at hwritten
    exact Option.some_ne_none _ (hwritten.symm.trans hbefore)

end Secretov
