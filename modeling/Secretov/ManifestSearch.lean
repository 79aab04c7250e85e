import Secretov.Exec
import Secretov.ManifestLinks

/-! `find_manifest_upward` (manifest.cpp) in a directory tree: it finds the manifest of the
nearest directory that has one, through directories of ours alone. -/

namespace Secretov

open LinkTree

/-- `dir / name` -/
def pathAppend (dir name : Bytes) : Bytes :=
  if dir = [] ∨ dir.getLast? = some slash then dir ++ name else dir ++ slash :: name

def ownerOf : Node FileName FileInfo Leaf → Option Nat
  | .directory info => some info.stat.uid
  | .leaf file => some file.info.stat.uid
  | .link _ => none

namespace FileTree

variable (fs : FileTree)

/-- What a path names, when its last name is not followed. -/
def entryAt (path : Bytes) : Except Failure (Node FileName FileInfo Leaf) := do
  let p := parsePath path
  match p.steps.getLast? with
  | some (.name x) =>
    let dir ← fs.entries.resolve fs.linkLimit (p.start fs.cwd) p.steps.dropLast
    if fs.entries.searchable dir then found (dir ++ [x]) else .error .denied
  | _ =>
    let goal ← fs.entries.resolve fs.linkLimit (p.start fs.cwd) p.steps
    found goal
where
  found (names : List FileName) : Except Failure (Node FileName FileInfo Leaf) :=
    match fs.entries.node names with
    | some node => .ok node
    | none => .error .noEntry

/-- `lstat`, which does not follow the last name. -/
def lstat (path : Bytes) : Except Bytes (Node FileName FileInfo Leaf) := do
  fs.unlessFault .stat path
  (fs.entryAt path).mapError fs.strerror

/-- `stat` of a path that may be empty, which names nothing. -/
def statOf (path : Bytes) : Except Bytes (Node FileName FileInfo Leaf) :=
  if path = [] then .error (fs.strerror .noEntry) else fs.stat path

variable (host : Host)

/-- The loop. It gives nothing if it has not ended after this many rounds. -/
def searchUpward : Nat → Bytes → Option (Option Bytes)
  | 0, _ => none
  | rounds + 1, dir =>
    match fs.statOf dir with
    | .error _ => some none
    | .ok node =>
      if ownerOf node ≠ some host.uid then some none
      else if (fs.lstat (pathAppend dir kManifestFileName)).isOk then some
        (some (pathAppend dir kManifestFileName))
      else if parsePath (parentPath dir) = parsePath dir then some none
      else searchUpward rounds (parentPath dir)

/-- The rounds are enough for every path: `searchUpward_ends`. -/
def findManifestUpward (startDir : Bytes) : Option Bytes :=
  (fs.searchUpward host (startDir.length + 1) startDir).getD none

/-- What the names stand for can be asked of the system. -/
def Sees (names : List FileName) : Prop :=
  fs.fault .stat (rootedPath names) = none ∧ fs.entries.Reaches [] names ∧ fs.entries.node names ≠ none

def Ours (names : List FileName) : Prop :=
  fs.Sees names ∧ ∃ info, fs.entries.node names = some (.directory info) ∧ info.stat.uid = host.uid

/-- The nearest directory, from one upward, that has an entry of the manifest's name. -/
structure NearestManifest (start dir : List FileName) : Prop where
  upward : dir <+: start
  seen : fs.Sees (dir ++ [.manifest])
  nearest : ∀ other, other <+: start → fs.Sees (other ++ [.manifest]) → other <+: dir
  ours : ∀ between, dir <+: between → between <+: start → fs.Ours host between

end FileTree

/-! Paths of names. -/

theorem rootedPath_concat (names : List FileName) (x : FileName) :
    rootedPath (names ++ [x]) = (names.flatMap fun name => slash :: name.bytes) ++ slash :: x.bytes := by
  rw [rootedPath, if_neg (List.concat_ne_nil x names), List.flatMap_append, List.flatMap_singleton]

theorem rootedPath_ne_nil (names : List FileName) : rootedPath names ≠ [] := by
  cases names with
  | nil => exact List.cons_ne_nil _ _
  | cons x names => exact List.cons_ne_nil _ _

theorem rootedPath_ends (names : List FileName) (x : FileName) :
    (rootedPath (names ++ [x])).getLast? ≠ some slash := by
  obtain ⟨hne, hslash, -, -⟩ := x.plain
  rw [rootedPath_concat, List.getLast?_append_of_ne_nil _ (List.cons_ne_nil _ _),
    List.getLast?_cons_of_ne_nil hne]
  exact fun hlast => hslash (List.mem_of_getLast? hlast)

theorem pathAppend_rootedPath (names : List FileName) (x : FileName) :
    pathAppend (rootedPath names) x.bytes = rootedPath (names ++ [x]) := by
  rw [rootedPath_concat]
  rcases List.eq_nil_or_concat' names with rfl | ⟨init, y, rfl⟩
  · exact if_pos (Or.inr rfl)
  · rw [pathAppend, if_neg fun h => h.elim (rootedPath_ne_nil _) (rootedPath_ends init y), rootedPath_concat,
      List.flatMap_append, List.flatMap_singleton]

theorem parentPath_rootedPath (names : List FileName) (x : FileName) :
    parentPath (rootedPath (names ++ [x])) = rootedPath names := by
  obtain ⟨hne, hslash, -, -⟩ := x.plain
  have hpath := rootedPath_concat names x
  have hall : ¬ (rootedPath (names ++ [x])).all (· = slash) = true := by
    obtain ⟨c, hc⟩ := List.exists_mem_of_ne_nil _ hne
    intro hall
    have hmem : c ∈ rootedPath (names ++ [x]) := by
      rw [hpath]
      exact List.mem_append_right _ (List.mem_cons_of_mem _ hc)
    have hcs : c = slash := by simpa using List.all_eq_true.mp hall c hmem
    exact hslash (hcs ▸ hc)
  have hsteps : (parsePath (rootedPath (names ++ [x]))).steps = names.map .name ++ [.name x] := by
    rw [parsePath_rootedPath, List.map_append]
    rfl
  have hfront : (rootedPath (names ++ [x])).rdropWhile (· ≠ slash) =
      (names.flatMap fun name => slash :: name.bytes) ++ [slash] := by
    have hsplit := hpath.symm.trans (steps_eq_name hsteps).1
    rw [List.append_cons (names.flatMap _) slash x.bytes] at hsplit
    exact (List.append_cancel_right hsplit).symm
  rw [parentPath, if_neg hall, hfront, List.rdropWhile_concat_pos _ _ _ (by simp)]
  rcases List.eq_nil_or_concat' names with rfl | ⟨init, y, rfl⟩
  · exact if_pos ⟨rfl, congrArg List.head? hpath⟩
  · have hroot : ((init ++ [y]).flatMap fun name => slash :: name.bytes) = rootedPath (init ++ [y]) :=
      (if_neg (List.concat_ne_nil y init)).symm
    have hkept : (rootedPath (init ++ [y])).rdropWhile (· = slash) = rootedPath (init ++ [y]) := by
      refine List.rdropWhile_eq_self_iff.mpr fun hne hlast => rootedPath_ends init y ?_
      rw [List.getLast?_eq_some_getLast hne]
      exact congrArg some (by simpa using hlast)
    rw [hroot, hkept]
    exact if_neg fun h => rootedPath_ne_nil _ h.1

theorem parentPath_length {s : Bytes} (h : ¬ s.all (· = slash) = true) : (parentPath s).length < s.length := by
  have hshort : ((s.rdropWhile (· ≠ slash)).rdropWhile (· = slash)).length < s.length := by
    have hfirst := (List.rdropWhile_prefix (· ≠ slash) s).length_le
    rcases rdropWhile_slash s with hnil | ⟨front, hfront⟩
    · rw [hnil]
      exact List.length_pos_of_ne_nil fun hs => h (hs ▸ rfl)
    · have hsecond := (List.rdropWhile_prefix (· = slash) front).length_le
      rw [hfront, List.rdropWhile_concat_pos _ _ _ (by simp)]
      rw [hfront, List.length_append, List.length_singleton] at hfirst
      omega
  rw [parentPath, if_neg h]
  dsimp only
  split_ifs with hroot
  · cases s with
    | nil => exact absurd rfl h
    | cons c rest =>
      cases rest with
      | nil =>
        obtain rfl : c = slash := Option.some.inj hroot.2
        exact absurd rfl h
      | cons d rest => simp
  · exact hshort

/-! The search. -/

namespace FileTree

variable {fs : FileTree} {host : Host}

theorem unlessFault_eq_ok {call : Syscall} {path : Bytes} {u : Unit} :
    fs.unlessFault call path = .ok u ↔ fs.fault call path = none := by
  rw [unlessFault]
  cases fs.fault call path <;> simp

theorem entryAt_found_isOk (names : List FileName) :
    (entryAt.found fs names).isOk = true ↔ fs.entries.node names ≠ none := by
  rw [entryAt.found]
  cases fs.entries.node names <;> simp [Except.isOk, Except.toBool]

theorem resolve_rootedPath {names goal : List FileName} {info : FileInfo}
    (hnode : fs.entries.node names = some (.directory info)) :
    fs.resolve ⟨true, names.map .name⟩ = .ok goal ↔ goal = names ∧ fs.entries.Reaches [] names := by
  have hresolve := @Entries.resolve_names_eq_ok _ _ _ fs.entries fs.linkLimit [] goal names info hnode
  rw [List.nil_append] at hresolve
  rw [← hresolve, resolve]
  exact ⟨Prog.mapError_eq_ok, fun h => by rw [Pathname.start, if_pos rfl, h]; rfl⟩

/-- A directory is seen if and only if `stat` gives it. -/
theorem stat_rootedPath {names : List FileName} {info : FileInfo} {node : Node FileName FileInfo Leaf}
    (hnode : fs.entries.node names = some (.directory info)) :
    fs.stat (rootedPath names) = .ok node ↔ node = .directory info ∧ fs.Sees names := by
  have hfound : fs.nodeAt names = .ok (.directory info) := by rw [nodeAt, hnode]
  simp only [stat, parsePath_rootedPath, Prog.except_bind_eq_ok, unlessFault_eq_ok,
    resolve_rootedPath hnode, Sees]
  constructor
  · rintro ⟨_, hfault, goal, ⟨rfl, hreaches⟩, h⟩
    exact ⟨(Except.ok.inj (hfound.symm.trans h)).symm, hfault,
      hreaches, by rw [hnode]; exact Option.some_ne_none _⟩
  · rintro ⟨rfl, hfault, hreaches, -⟩
    exact ⟨⟨⟩, hfault, names, ⟨rfl, hreaches⟩, hfound⟩

/-- An entry of a directory is seen if and only if `lstat` gives it. -/
theorem lstat_rootedPath {names : List FileName} {x : FileName} {info : FileInfo}
    (hnode : fs.entries.node names = some (.directory info)) :
    (fs.lstat (rootedPath (names ++ [x]))).isOk = true ↔ fs.Sees (names ++ [x]) := by
  have hentry : fs.entryAt (rootedPath (names ++ [x])) = (do
      let dir ← fs.entries.resolve fs.linkLimit [] (names.map .name)
      if fs.entries.searchable dir then entryAt.found fs (dir ++ [x]) else .error .denied) := by
    simp only [entryAt, parsePath_rootedPath, List.map_append, List.map_cons, List.map_nil, List.getLast?_concat,
      List.dropLast_concat]
    rfl
  have hresolve : ∀ {goal}, fs.entries.resolve fs.linkLimit [] (names.map .name) = .ok goal ↔
      goal = names ∧ fs.entries.Reaches [] names :=
    Entries.resolve_names_eq_ok (by rwa [List.nil_append])
  rw [lstat, hentry, Sees, Entries.reaches_concat, List.nil_append]
  constructor
  · intro h
    obtain ⟨node, hok⟩ := Prog.except_exists_of_isOk h
    obtain ⟨_, hfault, hok⟩ := Prog.except_bind_eq_ok.mp hok
    obtain ⟨dir, hdir, hok⟩ := Prog.except_bind_eq_ok.mp (Prog.mapError_eq_ok hok)
    obtain ⟨hsame, hreaches⟩ := hresolve.mp hdir
    rw [hsame] at hok
    split_ifs at hok with hsearch
    refine ⟨unlessFault_eq_ok.mp hfault, ⟨hreaches, hsearch⟩, (entryAt_found_isOk _).mp ?_⟩
    rw [hok]
    rfl
  · rintro ⟨hfault, ⟨hreaches, hsearch⟩, hsome⟩
    obtain ⟨node, hnode⟩ := Prog.except_exists_of_isOk ((entryAt_found_isOk _).mpr hsome)
    rw [(@unlessFault_eq_ok _ _ _ ⟨⟩).mpr hfault, hresolve.mpr ⟨rfl, hreaches⟩]
    change ((if fs.entries.searchable names = true then entryAt.found fs (names ++ [x]) else _).mapError
      _).isOk = true
    rw [if_pos hsearch, hnode]
    rfl

/-- The loop goes on with a parent, which is shorter. -/
theorem parentPath_shorter {dir : Bytes} (h : parsePath (parentPath dir) ≠ parsePath dir) :
    (parentPath dir).length < dir.length :=
  parentPath_length fun hall => h (by rw [parentPath, if_pos hall])

/-- With enough rounds the loop ends, with the same result for every number that is enough. -/
theorem searchUpward_rounds {dir : Bytes} {rounds rounds' : Nat} (h : dir.length < rounds)
    (h' : dir.length < rounds') :
    ∃ result, fs.searchUpward host rounds dir = some result ∧ fs.searchUpward host rounds' dir = some result := by
  induction rounds generalizing dir rounds' with
  | zero => exact absurd h (Nat.not_lt_zero _)
  | succ rounds ih =>
    cases rounds' with
    | zero => exact absurd h' (Nat.not_lt_zero _)
    | succ rounds' =>
      rw [searchUpward, searchUpward]
      cases fs.statOf dir with
      | error e => exact ⟨none, rfl, rfl⟩
      | ok node =>
        dsimp only
        split_ifs with _ _ hparent
        · exact ⟨_, rfl, rfl⟩
        · exact ⟨_, rfl, rfl⟩
        · exact ⟨_, rfl, rfl⟩
        · have hshort := parentPath_shorter hparent
          exact ih (by omega) (by omega)

theorem searchUpward_ends {dir : Bytes} {rounds : Nat} (h : dir.length < rounds) :
    fs.searchUpward host rounds dir = some (fs.findManifestUpward host dir) := by
  obtain ⟨result, hrounds, henough⟩ := @searchUpward_rounds fs host dir _ _ h (Nat.lt_succ_self dir.length)
  rw [findManifestUpward, henough, hrounds]
  rfl

/-- One round of the loop, and the loop from the parent. -/
theorem findManifestUpward_round (dir : Bytes) : fs.findManifestUpward host dir =
    match fs.statOf dir with
    | .error _ => none
    | .ok node =>
      if ownerOf node ≠ some host.uid then none
      else if (fs.lstat (pathAppend dir kManifestFileName)).isOk then some (pathAppend dir kManifestFileName)
      else if parsePath (parentPath dir) = parsePath dir then none
      else fs.findManifestUpward host (parentPath dir) := by
  rw [findManifestUpward, searchUpward]
  cases fs.statOf dir with
  | error e => rfl
  | ok node =>
    dsimp only
    split_ifs with _ _ hparent
    · rfl
    · rfl
    · rfl
    · rw [searchUpward_ends (parentPath_shorter hparent)]
      rfl

/-- What is found from a directory: its own entry, or what is found from its parent. -/
theorem findManifestUpward_rootedPath {names : List FileName} {info : FileInfo} {path : Bytes}
    (hnode : fs.entries.node names = some (.directory info)) :
    fs.findManifestUpward host (rootedPath names) = some path ↔ fs.Ours host names ∧
      (fs.Sees (names ++ [.manifest]) ∧ path = rootedPath (names ++ [.manifest]) ∨
        ¬ fs.Sees (names ++ [.manifest]) ∧ ∃ above x, names = above ++ [x] ∧
          fs.findManifestUpward host (rootedPath above) = some path) := by
  have happend : pathAppend (rootedPath names) kManifestFileName = rootedPath (names ++ [.manifest]) :=
    pathAppend_rootedPath names .manifest
  rw [findManifestUpward_round, happend, statOf, if_neg (rootedPath_ne_nil names)]
  cases hstat : fs.stat (rootedPath names) with
  | error e =>
    refine iff_of_false (fun h => nomatch h) fun h => ?_
    have hok := (stat_rootedPath hnode).mpr ⟨rfl, h.1.1⟩
    rw [hstat] at hok
    cases hok
  | ok node =>
    obtain ⟨rfl, hsees⟩ := (stat_rootedPath hnode).mp hstat
    have howner : ownerOf (.directory info) ≠ some host.uid ↔ ¬ fs.Ours host names := by
      refine not_congr ⟨fun h => ⟨hsees, info, hnode, Option.some.inj h⟩, ?_⟩
      rintro ⟨-, info', hnode', huid⟩
      obtain rfl := Node.directory.inj (Option.some.inj (hnode.symm.trans hnode'))
      exact congrArg some huid
    have hroot : parsePath (parentPath (rootedPath names)) = parsePath (rootedPath names) ↔ names = [] := by
      rcases List.eq_nil_or_concat' names with rfl | ⟨above, x, rfl⟩
      · exact iff_of_true rfl rfl
      · refine iff_of_false (fun h => ?_) (List.concat_ne_nil x above)
        rw [parentPath_rootedPath, parsePath_rootedPath, parsePath_rootedPath] at h
        simpa using congrArg List.length (Pathname.mk.inj h).2
    dsimp only
    split_ifs with hothers hseen hparent
    · exact iff_of_false (fun h => nomatch h) fun h => howner.mp hothers h.1
    · have hours := not_not.mp (mt howner.mpr hothers)
      have hseen := (lstat_rootedPath hnode).mp hseen
      rw [Option.some.injEq, eq_comm]
      exact ⟨fun h => ⟨hours, .inl ⟨hseen, h⟩⟩, fun h => (h.2.resolve_right fun hno => hno.1 hseen).2⟩
    · refine iff_of_false (fun h => nomatch h) ?_
      rintro ⟨-, ⟨hsees, -⟩ | ⟨-, above, x, hnames, -⟩⟩
      · exact hseen ((lstat_rootedPath hnode).mpr hsees)
      · exact List.concat_ne_nil x above (hnames ▸ hroot.mp hparent)
    · have hours := not_not.mp (mt howner.mpr hothers)
      have hunseen := mt (lstat_rootedPath hnode).mpr hseen
      rcases List.eq_nil_or_concat' names with hnil | ⟨above, x, rfl⟩
      · exact absurd (hroot.mpr hnil) hparent
      · rw [parentPath_rootedPath]
        constructor
        · exact fun h => ⟨hours, .inr ⟨hunseen, above, x, rfl, h⟩⟩
        · rintro ⟨-, ⟨hsees, -⟩ | ⟨-, above', x', hnames, h⟩⟩
          · exact absurd hsees hunseen
          · obtain ⟨rfl, -⟩ := List.append_inj' hnames rfl
            exact h

/-- The nearest manifest, likewise. -/
theorem nearestManifest_round {names dir : List FileName} : fs.NearestManifest host names dir ↔
    fs.Ours host names ∧ (fs.Sees (names ++ [.manifest]) ∧ dir = names ∨
      ¬ fs.Sees (names ++ [.manifest]) ∧ ∃ above x, names = above ++ [x] ∧
      fs.NearestManifest host above dir) := by
  constructor
  · intro h
    refine ⟨h.ours names h.upward (List.prefix_refl _), ?_⟩
    by_cases hsees : fs.Sees (names ++ [.manifest])
    · exact .inl ⟨hsees, h.upward.eq_of_length_le (h.nearest names (List.prefix_refl _) hsees).length_le⟩
    · refine .inr ⟨hsees, ?_⟩
      rcases List.eq_nil_or_concat' names with rfl | ⟨above, x, rfl⟩
      · obtain rfl := List.prefix_nil.mp h.upward
        exact absurd h.seen hsees
      · rcases List.prefix_concat_iff.mp h.upward with rfl | hdir
        · exact absurd h.seen hsees
        · have hup : ∀ {other}, other <+: above → other <+: above ++ [x] := fun hother =>
            hother.trans (List.prefix_append _ _)
          exact ⟨above, x, rfl, hdir, h.seen, fun other hother => h.nearest other (hup hother),
            fun between hbetween habove => h.ours between hbetween (hup habove)⟩
  · rintro ⟨hours, ⟨hsees, rfl⟩ | ⟨hunseen, above, x, rfl, h⟩⟩
    · exact ⟨List.prefix_refl _, hsees, fun other hother _ => hother,
        fun between hlow hhigh => hhigh.eq_of_length_le hlow.length_le ▸ hours⟩
    · refine ⟨h.upward.trans (List.prefix_append _ _), h.seen, fun other hother hsees => ?_,
        fun between hlow hhigh => ?_⟩
      · rcases List.prefix_concat_iff.mp hother with rfl | hother
        · exact absurd hsees hunseen
        · exact h.nearest other hother hsees
      · rcases List.prefix_concat_iff.mp hhigh with rfl | hhigh
        · exact hours
        · exact h.ours between hlow hhigh

theorem findManifestUpward_eq_some_iff {names : List FileName} {info : FileInfo} {path : Bytes}
    (hcwd : fs.entries.node names = some (.directory info)) :
    fs.findManifestUpward host (rootedPath names) = some path ↔
      ∃ dir, fs.NearestManifest host names dir ∧ path = rootedPath (dir ++ [.manifest]) := by
  induction hlength : names.length using Nat.strong_induction_on generalizing names info with
  | _ length ih =>
    have habove : ∀ above x, names = above ++ [x] → (fs.findManifestUpward host (rootedPath above) = some path ↔
        ∃ dir, fs.NearestManifest host above dir ∧ path = rootedPath (dir ++ [.manifest])) := by
      rintro above x rfl
      obtain ⟨info', hparent⟩ := fs.entries.parent above x (by rw [hcwd]; exact Option.some_ne_none _)
      exact ih above.length (by rw [← hlength]; simp) hparent rfl
    rw [findManifestUpward_rootedPath hcwd]
    constructor
    · rintro ⟨hours, ⟨hsees, rfl⟩ | ⟨hunseen, above, x, hnames, hfound⟩⟩
      · exact ⟨names, nearestManifest_round.mpr ⟨hours, .inl ⟨hsees, rfl⟩⟩, rfl⟩
      · obtain ⟨dir, hdir, rfl⟩ := (habove above x hnames).mp hfound
        exact ⟨dir, nearestManifest_round.mpr ⟨hours, .inr ⟨hunseen, above, x, hnames, hdir⟩⟩, rfl⟩
    · rintro ⟨dir, hdir, rfl⟩
      obtain ⟨hours, ⟨hsees, rfl⟩ | ⟨hunseen, above, x, hnames, hdir⟩⟩ := nearestManifest_round.mp hdir
      · exact ⟨hours, .inl ⟨hsees, rfl⟩⟩
      · exact ⟨hours, .inr ⟨hunseen, above, x, hnames, (habove above x hnames).mpr ⟨dir, hdir, rfl⟩⟩⟩

/-- Where some manifest is reached through directories of ours, there is a nearest one. -/
theorem exists_nearestManifest {names dir : List FileName}
    (hdir : dir <+: names) (hsees : fs.Sees (dir ++ [.manifest]))
    (hours : ∀ between, dir <+: between → between <+: names → fs.Ours host between) :
    ∃ nearest, fs.NearestManifest host names nearest := by
  induction names using List.reverseRecOn with
  | nil =>
    obtain rfl := List.prefix_nil.mp hdir
    exact ⟨[], nearestManifest_round.mpr ⟨hours [] hdir hdir, .inl ⟨hsees, rfl⟩⟩⟩
  | append_singleton above x ih =>
    have hhere := hours (above ++ [x]) hdir (List.prefix_refl _)
    by_cases hseen : fs.Sees (above ++ [x] ++ [.manifest])
    · exact ⟨above ++ [x], nearestManifest_round.mpr ⟨hhere, .inl ⟨hseen, rfl⟩⟩⟩
    · rcases List.prefix_concat_iff.mp hdir with rfl | habove
      · exact absurd hsees hseen
      · obtain ⟨nearest, hnearest⟩ := ih habove fun between hlow hhigh =>
          hours between hlow (hhigh.trans (List.prefix_append _ _))
        exact ⟨nearest, nearestManifest_round.mpr ⟨hhere, .inr ⟨hseen, above, x, rfl, hnearest⟩⟩⟩

/-- The search finds the nearest manifest. It gives up where every manifest upward is behind
a directory that is not ours, and only there. From any path it ends. -/
theorem finds_nearest_manifest {names : List FileName} {info : FileInfo}
    (hcwd : fs.entries.node names = some (.directory info)) :
    (∀ path, fs.findManifestUpward host (rootedPath names) = some path ↔
      ∃ dir, fs.NearestManifest host names dir ∧ path = rootedPath (dir ++ [.manifest])) ∧
    (fs.findManifestUpward host (rootedPath names) = none ↔ ∀ dir, dir <+: names → fs.Sees (dir ++ [.manifest]) →
      ∃ between, dir <+: between ∧ between <+: names ∧ ¬ fs.Ours host between) ∧
    ∀ (path : Bytes) (rounds : Nat), path.length < rounds →
      fs.searchUpward host rounds path = some (fs.findManifestUpward host path) := by
  refine ⟨fun path => findManifestUpward_eq_some_iff hcwd, ⟨fun hnone dir hdir hsees => ?_, fun hall => ?_⟩,
    fun path rounds => searchUpward_ends⟩
  · by_contra hours
    push Not at hours
    obtain ⟨nearest, hnearest⟩ := exists_nearestManifest hdir hsees hours
    have hfound := (findManifestUpward_eq_some_iff hcwd).mpr ⟨nearest, hnearest, rfl⟩
    rw [hnone] at hfound
    cases hfound
  · refine Option.eq_none_iff_forall_ne_some.mpr fun path hfound => ?_
    obtain ⟨dir, hnearest, -⟩ := (findManifestUpward_eq_some_iff hcwd).mp hfound
    obtain ⟨between, hlow, hhigh, hother⟩ := hall dir hnearest.upward hnearest.seen
    exact hother (hnearest.ours between hlow hhigh)

end FileTree

/-- A manifest in /home, and a directory below that has none. -/
def nestedFiles : FileTree where
  entries := Entries.ofList [([], .directory rootDirectory), ([.home], .directory privateDirectory),
    ([.home, .manifest], .leaf sampleLeaf), ([.home, .work], .directory privateDirectory)]
    (fun _ => true) (by decide)
  cwd := [.home, .work]
  linkLimit := 40
  fault _ _ := none
  strerror := linkedFiles.strerror
  emptyPath := text "Invalid argument"

theorem finds_nearest_manifest_sample : ∃ dir, nestedFiles.NearestManifest sampleHost [.home, .work] dir ∧
    text "/home/.secretov.yaml" = rootedPath (dir ++ [.manifest]) :=
  ((FileTree.finds_nearest_manifest rfl).1 _).mp (by decide +kernel)

end Secretov
