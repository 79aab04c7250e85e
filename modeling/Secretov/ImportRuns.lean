import Secretov.DaemonReplies
import Secretov.ImportChecks
import Secretov.ManifestTrust
import Secretov.StoreRefinement

/-! An import changes nothing until all of its input has been accepted, and then
it stores its pairs one by one. -/

namespace Secretov

/-- These pairs are stored under their keys, and nothing else has changed. -/
structure Stored (target : Target) (pairs : KeyValues) (before after : Data) : Prop where
  values : ∀ pair ∈ pairs, after[target.key pair.1]? = some (.string pair.2)
  others : ∀ key, (∀ pair ∈ pairs, key ≠ target.key pair.1) → after[key]? = before[key]?

namespace Stored

variable {target : Target} {pairs : KeyValues} {before after : Data}

theorem nothing (target : Target) (before : Data) : Stored target [] before before := ⟨nofun, fun _ _ => rfl⟩

theorem add (h : Stored target pairs before after) {pair : Bytes × Bytes} (hnew : pair.1 ∉ pairs.map Prod.fst) :
    Stored target (pairs ++ [pair]) before (after.insert (target.key pair.1) (.string pair.2)) where
  values p hp := by
    rcases List.mem_append.mp hp with hp | hp
    · have hne : target.key pair.1 ≠ target.key p.1 := by
        intro hkey
        exact hnew (List.mem_map.mpr ⟨p, hp, (target.key_injective hkey).symm⟩)
      rw [Std.ExtTreeMap.getElem?_insert, if_neg (mt Std.LawfulEqCmp.eq_of_compare hne)]
      exact h.values p hp
    · obtain rfl := List.mem_singleton.mp hp
      exact Std.ExtTreeMap.getElem?_insert_self
  others key hkey := by
    have hne : target.key pair.1 ≠ key := (hkey pair (by simp)).symm
    rw [Std.ExtTreeMap.getElem?_insert, if_neg (mt Std.LawfulEqCmp.eq_of_compare hne)]
    exact h.others key fun p hp => hkey p (List.mem_append_left _ hp)

end Stored

section

variable {S : Sodium} {F : Format S} (c : Channel) (yaml : YamlCpp) (args : ImportArgs) (around : Surroundings)

/-- All of the input is accepted, and this is the new text of the manifest. -/
structure InputAccepted (s : ImportState (Session F)) (target : Target) (newText : Bytes) : Prop where
  targets : Targets yaml args around s.files target
  sendable : ∀ pair ∈ target.pairs, Sendable c target pair
  unasked : args.overwrite = false → ∀ pair ∈ target.pairs, target.key pair.1 ∉ s.session.world.store.data
  edited : manifestWithEntries yaml target.located.manifestText target.located.project target.env
    (target.pairs.map fun pair => (pair.1, pair.1)) = .ok newText
  creatable : newText ≠ target.located.manifestText →
    around.requireCreatableManifestDir target.located.writePath = .ok ()

/-- What an import makes of the store and the files. -/
inductive ImportOutcome (s t : ImportState (Session F)) : Except ImportError Imported → Prop
  | refused {what : Bytes} (hworld : t.session.world = s.session.world) (hfiles : t.files = s.files) :
      ImportOutcome s t (.error (.refused what))
  | set {target : Target} {newText : Bytes} {done rest : KeyValues} {pair : Bytes × Bytes} {e : ClientError}
      (haccepted : InputAccepted c yaml args around s target newText)
      (hpairs : target.pairs = done ++ pair :: rest)
      (hstored : Stored target done s.session.world.store.data t.session.world.store.data ∨
        e.maybeApplied = true ∧
          Stored target (done ++ [pair]) s.session.world.store.data t.session.world.store.data)
      (hfiles : t.files = s.files) :
      ImportOutcome s t (.error (.set pair.1 e (done.map (target.key ·.1))))
  | write {target : Target} {newText what : Bytes} (haccepted : InputAccepted c yaml args around s target newText)
      (hfails : around.writeFails target.located.writePath = some what)
      (hstored : Stored target target.pairs s.session.world.store.data t.session.world.store.data)
      (hfiles : t.files = s.files) : ImportOutcome s t (.error (.write what))
  | imported {target : Target} {newText : Bytes} {result : Imported}
      (haccepted : InputAccepted c yaml args around s target newText)
      (hstored : Stored target target.pairs s.session.world.store.data t.session.world.store.data)
      (hfiles : t.files = Function.update s.files target.located.writePath (some newText))
      (hnames : NamesSecrets yaml newText target.located.project target.env
        (target.pairs.map fun pair => (pair.1, pair.1))) :
      ImportOutcome s t (.ok result)

variable {c yaml args around} {s t : ImportState (Session F)}

theorem request_exchanged (op key : Bytes) (value : Option Bytes) (u : Session F) :
    Exchanged c op key value u.world (c.request op key value u).1 (c.request op key value u).2.world :=
  exchange_exchanged c op key value (u.fates 0) u.world

/-- The loop over the pairs, from where these are done. -/
theorem storePairs_run (hparse : c.json.ParseUndoesDump) (hok : ∃ r, okResponse c.json = .ok r) {target : Target}
    (done : KeyValues) {pairs : KeyValues} (before : Data) (hsendable : ∀ pair ∈ pairs, Sendable c target pair)
    (hnodup : ((done ++ pairs).map Prod.fst).Nodup)
    (hstored : Stored target done before s.session.world.store.data) {r : Except ImportError (List Bytes)}
    (h : pairs.foldlM (storePair c.request target) (done.map (target.key ·.1)) s = (r, t)) :
    t.files = s.files ∧
      ((∃ keys, r = .ok keys) ∧ Stored target (done ++ pairs) before t.session.world.store.data ∨
        ∃ more pair rest e, pairs = more ++ pair :: rest ∧
          r = .error (.set pair.1 e ((done ++ more).map (target.key ·.1))) ∧
          (Stored target (done ++ more) before t.session.world.store.data ∨ e.maybeApplied = true ∧
            Stored target (done ++ more ++ [pair]) before t.session.world.store.data)) := by
  induction pairs generalizing done s with
  | nil =>
    obtain ⟨rfl, rfl⟩ := Prod.mk.inj h
    rw [List.append_nil]
    exact ⟨rfl, .inl ⟨⟨_, rfl⟩, hstored⟩⟩
  | cons pair pairs ih =>
    rw [List.foldlM_cons, Prog.bind_apply] at h
    have hnew : pair.1 ∉ done.map Prod.fst := by
      intro hmem
      rw [List.map_append, List.nodup_append] at hnodup
      exact hnodup.2.2 _ hmem _ (by simp) rfl
    have hset := exchange_set hparse hok
      (request_exchanged (c := c) (text "set") (target.key pair.1) (some pair.2) s.session)
    rcases hstep : storePair c.request target (done.map (target.key ·.1)) pair s with ⟨first, u⟩
    rw [hstep] at h
    obtain ⟨rfl, hfirst⟩ := storePair_cases (hsendable pair (by simp)) hstep
    cases hasked : (c.request (text "set") (target.key pair.1) (some pair.2) s.session).1 with
    | error e =>
      rw [hasked] at hfirst hset
      subst hfirst
      obtain ⟨rfl, rfl⟩ := Prod.mk.inj h
      refine ⟨rfl, .inr ⟨[], pair, pairs, e, rfl, by rw [List.append_nil], ?_⟩⟩
      rw [List.append_nil]
      rcases hset with ⟨hworld, -⟩ | ⟨hdata, happlied⟩
      · rw [hworld]
        exact .inl hstored
      · rw [hdata]
        exact .inr ⟨happlied e rfl, hstored.add hnew⟩
    | ok resp =>
      rw [hasked] at hfirst hset
      subst hfirst
      have hdata : (c.request (text "set") (target.key pair.1) (some pair.2) s.session).2.world.store.data =
          s.session.world.store.data.insert (target.key pair.1) (.string pair.2) := by
        rcases hset with ⟨-, e, he⟩ | ⟨hdata, -⟩
        · cases he
        · exact hdata
      have hnext : done.map (target.key ·.1) ++ [target.key pair.1] =
          (done ++ [pair]).map (target.key ·.1) := by simp
      have happend : done ++ pair :: pairs = done ++ [pair] ++ pairs := by simp
      rw [happend] at hnodup ⊢
      dsimp only at h
      rw [hnext] at h
      have hstored' : Stored target (done ++ [pair]) before
          (c.request (text "set") (target.key pair.1) (some pair.2) s.session).2.world.store.data := by
        rw [hdata]
        exact hstored.add hnew
      obtain ⟨hfiles, hrest⟩ := ih (done ++ [pair])
        (fun p hp => hsendable p (List.mem_cons_of_mem _ hp)) hnodup hstored' h
      refine ⟨hfiles, hrest.imp id ?_⟩
      rintro ⟨more, failed, rest, e, rfl, rfl, hfailed⟩
      refine ⟨pair :: more, failed, rest, e, rfl, by simp, ?_⟩
      simpa using hfailed

/-- What is left to do once the pairs are stored. -/
theorem finish_run {plan : Plan} {target : Target} (htarget : plan.target = target)
    (haccepted : InputAccepted c yaml args around s target plan.newText) {pre : Bytes}
    (hpre : scopePrefix target.env target.located.project = .ok pre) {u : ImportState (Session F)}
    (hfiles : u.files = s.files)
    (hstored : Stored target target.pairs s.session.world.store.data u.session.world.store.data)
    {r : Except ImportError Imported}
    (h : (do
      let _ ← (if plan.newText ≠ plan.target.located.manifestText then
        writeManifest around plan.target.located.writePath plan.newText else pure ⟨⟩ : ImportM (Session F) PUnit)
      let pre ← refuse ((scopePrefix plan.target.env plan.target.located.project).mapError Thrown.what)
      return { count := plan.target.pairs.length, scope := pre, overwritten := plan.collisions.length,
               manifestPath := plan.target.located.manifestPath } : ImportM (Session F) Imported) u = (r, t)) :
    ImportOutcome c yaml args around s t r := by
  subst htarget
  obtain ⟨hne, hnames⟩ := manifestWithEntries_ok haccepted.edited
  rw [hpre] at h
  split_ifs at h with hchanged
  · unfold writeManifest at h
    cases hfails : around.writeFails plan.target.located.writePath with
    | some what =>
      rw [hfails] at h
      obtain ⟨rfl, rfl⟩ := Prod.mk.inj h
      exact .write haccepted hfails hstored hfiles
    | none =>
      rw [hfails] at h
      obtain ⟨rfl, rfl⟩ := Prod.mk.inj h
      exact .imported haccepted hstored (congrArg (Function.update · _ _) hfiles) hnames
  · obtain ⟨rfl, rfl⟩ := Prod.mk.inj h
    rw [not_not] at hchanged
    refine .imported haccepted hstored ?_ hnames
    rcases loadLocated_text haccepted.targets.located with hempty | hfile
    · exact absurd (hchanged.trans hempty) hne
    · rw [hfiles, hchanged, ← hfile, Function.update_eq_self]

theorem cmd_import_all_or_nothing (hparse : c.json.ParseUndoesDump) (hok : ∃ r, okResponse c.json = .ok r)
    (s : ImportState (Session F)) :
    ImportOutcome c yaml args around s (cmdImport c.request c yaml args around s).2
      (cmdImport c.request c yaml args around s).1 := by
  rcases hrun : cmdImport c.request c yaml args around s with ⟨r, t⟩
  rw [cmdImport, Prog.bind_apply] at hrun
  rcases hchecks : importChecks c.request c yaml args around s with ⟨checked, u⟩
  rw [hchecks] at hrun
  rcases importChecks_cases hchecks with ⟨rfl, what, rfl⟩ | ⟨target, pre, htarget, hpre, rfl, hasked⟩
  · obtain ⟨rfl, rfl⟩ := Prod.mk.inj hrun
    exact .refused rfl rfl
  obtain ⟨hworld, hreply⟩ := exchange_getPrefix hparse (scopePrefix_ok hpre).1
    (request_exchanged (c := c) (text "getprefix") pre none s.session)
  rcases hasked with ⟨what, rfl⟩ | ⟨resp, existing, plan, hresp, hexisting, hplan, rfl⟩
  · obtain ⟨rfl, rfl⟩ := Prod.mk.inj hrun
    exact .refused hworld rfl
  obtain ⟨entries, hentries, rfl⟩ := hreply resp hresp
  have htargets := importTarget_ok htarget
  have hplanned := importPlan_ok hplan
  have haccepted : InputAccepted c yaml args around s target plan.newText := by
    refine ⟨htargets, hplanned.sendable, fun hoverwrite pair hpair hmem => ?_, hplanned.newText,
      hplanned.creatable⟩
    exact hplanned.unasked hoverwrite pair hpair
      (mem_existing hentries hexisting ((scopePrefix_ok hpre).2 pair.1) hmem)
  dsimp only at hrun
  rw [Prog.bind_apply, hplanned.sameTarget] at hrun
  rcases hpairs : target.pairs.foldlM (storePair c.request target) []
    { s with session := (c.request (text "getprefix") pre none s.session).2 } with ⟨stored, v⟩
  rw [hpairs] at hrun
  obtain ⟨hfiles, hstored⟩ := storePairs_run hparse hok [] s.session.world.store.data
    hplanned.sendable htargets.nodup (by rw [hworld]; exact .nothing target _) hpairs
  rcases hstored with ⟨⟨keys, rfl⟩, hstored⟩ | ⟨done, pair, rest, e, hsplit, rfl, hfailed⟩
  · exact finish_run hplanned.sameTarget haccepted hpre hfiles hstored (by rw [hplanned.sameTarget]; exact hrun)
  · obtain ⟨rfl, rfl⟩ := Prod.mk.inj hrun
    exact .set haccepted hsplit hfailed hfiles

end

def importTable : List (Bytes × Json) :=
  [(braced "\"key\":\"e/p/\",\"op\":\"getprefix\",\"token\":\"t\"",
      requestObject (text "t") (text "getprefix") (text "e/p/") none),
    (braced "\"key\":\"e/p/A\",\"op\":\"set\",\"token\":\"t\",\"value\":\"x\"",
      requestObject (text "t") (text "set") (text "e/p/A") (some (text "x"))),
    (braced "\"ok\":true,\"values\":\x7b\x7d", .object [(text "ok", .boolean true), (text "values", .object [])]),
    (braced "\"ok\":true", .object [(text "ok", .boolean true)]),
    (braced "\"e/p/A\":\"x\"", .object [(text "e/p/A", .string (text "x"))])]

def importChannel : Channel := ⟨tableOf importTable, text "sock", text "t", text "t"⟩

def importedText : Bytes :=
  text ("version: \"1\"\nname: p\nenv:\n  e:\n    secrets:\n      A:\n        env_var_name: A\n")

def importedTree : Yaml :=
  .map [(.ofText "version", .ofText "1"), (.ofText "name", .ofText "p"),
    (.ofText "env", .map [(.ofText "e", .map [(.ofText "secrets", .map [
      (.ofText "A", .map [(.ofText "env_var_name", .ofText "A")])])])])]

def importArgs : ImportArgs := ⟨some (text "p"), some (text "e"), false, text ".env"⟩

/-- A directory with a dotenv file and no manifest yet. -/
def importSurroundings : Surroundings where
  registryProjectRoot _ := .ok none
  findManifestUpward := .ok none
  cwd := text "/w"
  envOverride := none
  linkExists _ := .ok false
  requireReadable _ := .ok ()
  canonical path := .ok path
  requireCreatableManifestDir _ := .ok ()
  readFileString _ := .ok (text "A=x\n")
  openClient := .ok ()
  writeFails _ := none

def importStart : ImportState (Session (storeFormat taggedBoxes)) where
  session := ⟨sampleStart, fun _ => .connected (.replies sampleTurn)⟩
  files _ := none

def severalTable : List (Bytes × Json) := importTable ++
  [(braced "\"key\":\"e/p/B\",\"op\":\"set\",\"token\":\"t\",\"value\":\"y\"",
      requestObject (text "t") (text "set") (text "e/p/B") (some (text "y"))),
    (braced "\"key\":\"e/p/C\",\"op\":\"set\",\"token\":\"t\",\"value\":\"z\"",
      requestObject (text "t") (text "set") (text "e/p/C") (some (text "z"))),
    (braced "\"e/p/A\":\"x\",\"e/p/B\":\"y\"",
      .object [(text "e/p/A", .string (text "x")), (text "e/p/B", .string (text "y"))]),
    (braced "\"e/p/A\":\"x\",\"e/p/B\":\"y\",\"e/p/C\":\"z\"",
      .object [(text "e/p/A", .string (text "x")), (text "e/p/B", .string (text "y")),
        (text "e/p/C", .string (text "z"))])]

def severalChannel : Channel := ⟨tableOf severalTable, text "sock", text "t", text "t"⟩

def severalText : Bytes := importedText ++ text "      B:\n        env_var_name: B\n" ++
  text "      C:\n        env_var_name: C\n"

def severalTree : Yaml :=
  .map [(.ofText "version", .ofText "1"), (.ofText "name", .ofText "p"),
    (.ofText "env", .map [(.ofText "e", .map [(.ofText "secrets", .map [
      (.ofText "A", .map [(.ofText "env_var_name", .ofText "A")]),
      (.ofText "B", .map [(.ofText "env_var_name", .ofText "B")]),
      (.ofText "C", .map [(.ofText "env_var_name", .ofText "C")])])])])]

def severalSurroundings : Surroundings :=
  { importSurroundings with readFileString := fun _ => .ok (text "A=x\nB=y\nC=z\n") }

def severalStart (fates : Nat → Fate taggedBoxes.sodium) : ImportState (Session (storeFormat taggedBoxes)) where
  session := ⟨sampleStart, fates⟩
  files _ := none

/-- An import of three pairs, by what becomes of each request. -/
def severalImport (fates : Nat → Fate taggedBoxes.sodium) :
    Except ImportError Imported × ImportState (Session (storeFormat taggedBoxes)) :=
  cmdImport severalChannel.request severalChannel (loadOnly severalText severalTree)
    importArgs severalSurroundings (severalStart fates)

/-- The reply to the second of the three sets is lost. -/
def replyLost (n : Nat) : Fate taggedBoxes.sodium :=
  .connected (if n = 2 then .noReply true (some sampleTurn) else .replies sampleTurn)

theorem cmd_import_all_or_nothing_sample :
    ((severalImport fun _ => .connected (.replies sampleTurn)).1 =
        .ok ⟨3, text "e/p/", 0, text "/w/.secretov.yaml"⟩ ∧
      ImportOutcome severalChannel (loadOnly severalText severalTree) importArgs severalSurroundings
        (severalStart fun _ => .connected (.replies sampleTurn))
        (severalImport fun _ => .connected (.replies sampleTurn)).2
        (severalImport fun _ => .connected (.replies sampleTurn)).1) ∧
    (severalImport replyLost).1 = .error (.set (text "B") (replyMissing (text "set") true) [text "e/p/A"]) ∧
      ImportOutcome severalChannel (loadOnly severalText severalTree) importArgs severalSurroundings
        (severalStart replyLost) (severalImport replyLost).2 (severalImport replyLost).1 := by
  have hok : (okResponse severalChannel.json).isOk = true := by decide +kernel
  have houtcome (fates : Nat → Fate taggedBoxes.sodium) : ImportOutcome severalChannel
      (loadOnly severalText severalTree) importArgs severalSurroundings (severalStart fates)
      (severalImport fates).2 (severalImport fates).1 :=
    cmd_import_all_or_nothing (tableOf_parseUndoesDump _) (Prog.except_exists_of_isOk hok) (severalStart fates)
  exact ⟨⟨by decide +kernel, houtcome _⟩, by decide +kernel, houtcome _⟩

end Secretov
