import Secretov.ImportRuns
import Secretov.SnapshotReads
import Secretov.StoreMachine

/-! What an import has stored and declared, a program gets that exec starts later,
whatever other clients do to other keys meanwhile. -/

namespace Secretov

variable {S : Sodium} {F : Format S} {c : Channel} {w w' : World F}

/-! Requests that only read. -/

theorem respond_reads (hparse : c.json.ParseUndoesDump) {op key line : Bytes} (hset : op ≠ text "set")
    (hdelete : op ≠ text "delete") (hrotate : op ≠ text "rotate") (hpasswd : op ≠ text "passwd") (turn : Turn S)
    (hline : serializeRequest c.json c.token op key none = .ok line) :
    (respond c.json c.expectedToken turn line w).2 = w := by
  rw [respond_serialized hparse hline]
  split_ifs
  · rfl
  · have hreads := @dispatch_reads _ _ c.json turn.env ⟨c.token, op, key, [], [], []⟩
      turn.now hset hdelete hrotate hpasswd w
    unfold Prog.tryCatch
    rcases hd : dispatch c.json turn.env ⟨c.token, op, key, [], [], []⟩ turn.now w with ⟨e | reply, t⟩
    · rw [hd] at hreads
      simp only [Option.getD_none, hd]
      exact hreads
    · rw [hd] at hreads
      simp only [Option.getD_none, hd]
      exact hreads

theorem exchange_reads (hparse : c.json.ParseUndoesDump) {op : Bytes} (hset : op ≠ text "set")
    (hdelete : op ≠ text "delete") (hrotate : op ≠ text "rotate") (hpasswd : op ≠ text "passwd") (key : Bytes)
    (fate : Fate S) (w : World F) : (c.exchange op key none fate w).2 = w := by
  have hresponse := exchange_response (c := c) op key none fate w
  cases hhandled : c.response op key none fate w with
  | none =>
    rw [hhandled] at hresponse
    obtain ⟨e, he⟩ := hresponse
    rw [he]
  | some response =>
    rw [hhandled] at hresponse
    obtain ⟨line, turn, hline, hrespond⟩ := hresponse
    have hreads := respond_reads (w := w) hparse hset hdelete hrotate hpasswd turn hline
    rw [hrespond] at hreads
    exact hreads

/-! Keys that the others leave alone. -/

/-- The value that each of these keys has. -/
def Holding (keys : KeyValues) (w : World F) : Prop :=
  ∀ pair ∈ keys, w.store.data[pair.1]? = some (.string pair.2)

def Other.Leaves (keys : KeyValues) (other : Other S) : Prop :=
  ∀ pair ∈ keys, match other.op with
    | .get _ => True
    | .set key _ => key ≠ pair.1
    | .delete key => key ≠ pair.1

theorem set_leaves {json : Nlohmann} {env : Env S} {key key' value : Bytes} (hne : key' ≠ key) (w : World F) :
    ((StoreOp.set key' value).run json env w).2.store.data[key]? = w.store.data[key]? := by
  rcases hrun : (StoreOp.set key' value).run json env w with ⟨e | _, w'⟩
  · rw [Tracks.error hrun]
  · dsimp only
    rw [congrArg Store.data (Store.set_ok hrun).1, Std.ExtTreeMap.getElem?_insert,
      if_neg (mt Std.LawfulEqCmp.eq_of_compare hne)]

theorem remove_leaves {json : Nlohmann} {env : Env S} {key key' : Bytes} (hne : key' ≠ key) (w : World F) :
    ((StoreOp.remove key').run json env w).2.store.data[key]? = w.store.data[key]? := by
  rcases hrun : (StoreOp.remove key').run json env w with ⟨e | _, w'⟩
  · rw [Tracks.error hrun]
  · rcases StoreOp.remove_ok hrun with ⟨-, rfl⟩ | ⟨hstore, -⟩
    · rfl
    · dsimp only
      rw [congrArg Store.data hstore, Std.ExtTreeMap.getElem?_erase,
        if_neg (mt Std.LawfulEqCmp.eq_of_compare hne)]

theorem storeOp_op (token : Bytes) (op : Op) (now : UInt64) :
    Request.storeOp ⟨token, op.name, op.key, op.value.getD [], [], []⟩ now = if op.key = [] then none
      else match op with
        | .get _ => none
        | .set key value => some (.set key value)
        | .delete key => some (.remove key) := by
  have hother : text "delete" ≠ text "set" ∧ text "get" ≠ text "set" ∧ text "get" ≠ text "delete" ∧
    text "get" ≠ text "rotate" ∧ text "get" ≠ text "passwd" := by decide
  cases op with
  | get key =>
    simp only [Request.storeOp, Op.name, hother, if_false]
    split_ifs <;> rfl
  | set key value => rfl
  | delete key =>
    simp only [Request.storeOp, Op.name, hother, if_false, if_true]
    rfl

theorem handleOther_holding {keys : KeyValues} {other : Other S} (hleaves : other.Leaves keys)
    {met : World F × List (Handled F)} (h : Holding keys met.1) : Holding keys (c.handleOther met other).1 := by
  intro pair hpair
  have hleaves := hleaves pair hpair
  obtain ⟨op, turn⟩ := other
  simp only [Channel.handleOther]
  rw [dispatch_storeOp, storeOp_op]
  by_cases hkey : op.key = []
  · rw [if_pos hkey]
    exact h pair hpair
  rw [if_neg hkey]
  cases op with
  | get key => exact h pair hpair
  | set key value => exact (set_leaves hleaves met.1).trans (h pair hpair)
  | delete key => exact (remove_leaves hleaves met.1).trans (h pair hpair)

/-- Since a point of the log, every request has found these values, and the others
leave them alone in what is to come. -/
structure Undisputed (keys : KeyValues) (old : List (Handled F)) (s : Contended F) : Prop where
  now : Holding keys s.session.world
  others : ∀ n, ∀ other ∈ s.others n, Other.Leaves keys other
  since : ∃ recent, s.log = recent ++ old ∧ ∀ e ∈ recent, Holding keys e.before

theorem handleOthers_undisputed {keys : KeyValues} {old : List (Handled F)} (others : List (Other S))
    (hothers : ∀ other ∈ others, Other.Leaves keys other) {met : World F × List (Handled F)}
    (h : Holding keys met.1) (hsince : ∃ recent, met.2 = recent ++ old ∧ ∀ e ∈ recent, Holding keys e.before) :
    Holding keys (others.foldl c.handleOther met).1 ∧
      ∃ recent, (others.foldl c.handleOther met).2 = recent ++ old ∧ ∀ e ∈ recent, Holding keys e.before := by
  induction others generalizing met with
  | nil => exact ⟨h, hsince⟩
  | cons other others ih =>
    obtain ⟨hother, hothers⟩ := List.forall_mem_cons.mp hothers
    obtain ⟨recent, hlog, hrecent⟩ := hsince
    have hsince : ∃ recent, (c.handleOther met other).2 = recent ++ old ∧
        ∀ e ∈ recent, Holding keys e.before := by
      simp only [Channel.handleOther, hlog]
      exact ⟨_ :: recent, (List.cons_append ..).symm, List.forall_mem_cons.mpr ⟨h, hrecent⟩⟩
    exact ih hothers (handleOther_holding hother h) hsince

theorem contendedLocal_undisputed (hparse : c.json.ParseUndoesDump) {op : Bytes} (hset : op ≠ text "set")
    (hdelete : op ≠ text "delete") (hrotate : op ≠ text "rotate") (hpasswd : op ≠ text "passwd")
    {keys : KeyValues} {old : List (Handled F)} (key : Bytes) :
    Prog.Keeps (Undisputed keys old) (c.contendedLocal op key none) := by
  intro s h
  obtain ⟨hnow, recent, hlog, hrecent⟩ :=
    @handleOthers_undisputed _ _ c keys old (s.others 0) (h.others 0) (s.session.world, s.log) h.now h.since
  have hreads := exchange_reads hparse hset hdelete hrotate hpasswd key (s.session.fates 0)
    ((s.others 0).foldl c.handleOther (s.session.world, s.log)).1
  simp only [Channel.contendedLocal, Channel.contendedRequest, Channel.request]
  refine ⟨by rw [hreads]; exact hnow, fun n => h.others (n + 1), ?_⟩
  dsimp only
  rw [hlog]
  cases c.response op key none (s.session.fates 0)
    ((s.others 0).foldl c.handleOther (s.session.world, s.log)).1 with
  | none => exact ⟨recent, rfl, hrecent⟩
  | some response => exact ⟨_ :: recent, rfl, List.forall_mem_cons.mpr ⟨hnow, hrecent⟩⟩

theorem getMany_readsKeep {P : Contended F → Prop}
    (hget : ∀ key, Prog.Keeps P (c.contendedLocal (text "get") key none))
    (hgetPrefix : ∀ key, Prog.Keeps P (c.contendedLocal (text "getprefix") key none)) (paths : List Bytes) :
    Prog.Keeps P (getMany c.contendedLocal paths) := by
  refine .foldlM (fun fetched group => ?_) _ _
  refine Prog.Keeps.bind ?_ fun scope => .foldlM (fun fetched path => ?_) _ _
  · split_ifs
    · exact (hgetPrefix _).bind fun resp => .ofExcept _
    · exact .pure _
  · refine .tryCatch (Prog.Keeps.bind ?_ fun value => .pure _) fun e => ?_
    · unfold fetchValue
      split_ifs
      · exact (hget _).bind fun resp => .ofExcept _
      · split
        · exact .pure _
        · exact .throw _
    · cases e with
      | error e => exact .throw _
      | backend e =>
        dsimp only
        split_ifs
        · exact .throw _
        · exact .pure _

/-- What a fetch finds under keys that the others leave alone. -/
theorem getMany_holding (hparse : c.json.ParseUndoesDump) {keys : KeyValues} {s t : Contended F}
    (hnow : Holding keys s.session.world) (hothers : ∀ n, ∀ other ∈ s.others n, Other.Leaves keys other)
    {paths : List Bytes} {r : Except LocalError Fetched} (h : getMany c.contendedLocal paths s = (r, t))
    {own : Handled F} (hown : Between s t own) : Holding keys own.before := by
  have hops : text "get" ≠ text "set" ∧ text "get" ≠ text "delete" ∧ text "get" ≠ text "rotate" ∧
    text "get" ≠ text "passwd" ∧ text "getprefix" ≠ text "set" ∧ text "getprefix" ≠ text "delete" ∧
    text "getprefix" ≠ text "rotate" ∧ text "getprefix" ≠ text "passwd" := by decide
  obtain ⟨hset, hdelete, hrotate, hpasswd, hset', hdelete', hrotate', hpasswd'⟩ := hops
  have hstart : Undisputed keys s.log s := ⟨hnow, hothers, [], rfl, fun e he => by cases he⟩
  have hkeeps := getMany_readsKeep (c := c)
    (fun key => contendedLocal_undisputed hparse hset hdelete hrotate hpasswd key)
    (fun key => contendedLocal_undisputed hparse hset' hdelete' hrotate' hpasswd' key) paths s hstart
  rw [h] at hkeeps
  obtain ⟨recent, hlog, hrecent⟩ := hkeeps.since
  obtain ⟨recent', hlog', hmem⟩ := hown.new
  obtain rfl := List.append_cancel_right (hlog.symm.trans hlog')
  exact hrecent own hmem

/-! What an import that succeeds leaves behind. -/

theorem cmdImport_ok (hparse : c.json.ParseUndoesDump) (hok : ∃ r, okResponse c.json = .ok r) {yaml : YamlCpp}
    {args : ImportArgs} {around : Surroundings} {s t : ImportState (Session F)} {imported : Imported}
    (h : cmdImport c.request c yaml args around s = (.ok imported, t)) :
    ∃ target newText, InputAccepted c yaml args around s target newText ∧
      Stored target target.pairs s.session.world.store.data t.session.world.store.data ∧
      t.files target.located.writePath = some newText ∧
      NamesSecrets yaml newText target.located.project target.env
      (target.pairs.map fun pair => (pair.1, pair.1)) := by
  obtain ⟨plan, u, hchecks, h⟩ := Prog.bind_eq_ok.mp h
  rcases importChecks_cases hchecks with ⟨-, what, hr⟩ | ⟨target, pre, htarget, hpre, rfl, hasked⟩
  · cases hr
  obtain ⟨hworld, hreply⟩ := exchange_getPrefix hparse (scopePrefix_ok hpre).1
    (request_exchanged (c := c) (text "getprefix") pre none s.session)
  rcases hasked with ⟨what, hr⟩ | ⟨resp, existing, plan', hresp, hexisting, hplan, hr⟩
  · cases hr
  obtain rfl := Except.ok.inj hr
  obtain ⟨entries, hentries, rfl⟩ := hreply resp hresp
  have htargets := importTarget_ok htarget
  have hplanned := importPlan_ok hplan
  have haccepted : InputAccepted c yaml args around s target plan.newText := by
    refine ⟨htargets, hplanned.sendable, fun hoverwrite pair hpair hmem => ?_, hplanned.newText,
      hplanned.creatable⟩
    exact hplanned.unasked hoverwrite pair hpair
      (mem_existing hentries hexisting ((scopePrefix_ok hpre).2 pair.1) hmem)
  obtain ⟨keys, v, hpairs, h⟩ := Prog.bind_eq_ok.mp h
  rw [hplanned.sameTarget] at hpairs
  obtain ⟨hfiles, hstored⟩ := storePairs_run hparse hok [] s.session.world.store.data
    hplanned.sendable htargets.nodup (by rw [hworld]; exact .nothing target _) hpairs
  rcases hstored with ⟨-, hstored⟩ | ⟨done, pair, rest, e, -, hr, -⟩
  · have houtcome := finish_run hplanned.sameTarget haccepted hpre hfiles hstored h
    cases houtcome with
    | @imported target' newText _ haccepted' hstored' hfiles' hnames' =>
      exact ⟨target', newText, haccepted', hstored', by rw [hfiles', Function.update_self], hnames'⟩
  · cases hr

/-! An exec in the environment of an import. -/

/-- The manifest that `resolve_manifest` loads. -/
inductive FindsManifest (around : ExecSurroundings) : Option Bytes → Bytes → Prop
  | registered {project root : Bytes} (h : around.registryProjectRoot project = .ok (some root)) :
      FindsManifest around (some project) (root ++ slash :: kManifestFileName)
  | upward {found : Bytes} (h : around.findManifestUpward = .ok (some found)) : FindsManifest around none found

theorem FindsManifest.load {around : ExecSurroundings} {project : Option Bytes} {path : Bytes} {yaml : YamlCpp}
    {files : ManifestFiles} {m : Manifest} (h : FindsManifest around project path)
    (hresolve : resolveManifest yaml around files project = .ok m) :
    loadManifest yaml around files path = .ok m := by
  cases h with
  | registered hroot =>
    obtain ⟨found, hfound, hresolve⟩ := Prog.except_bind_eq_ok.mp hresolve
    obtain rfl := Except.ok.inj (hroot.symm.trans hfound)
    obtain ⟨m', hm', hresolve⟩ := Prog.except_bind_eq_ok.mp hresolve
    obtain ⟨_, -, hresolve⟩ := Prog.except_bind_eq_ok.mp hresolve
    obtain rfl := Except.ok.inj hresolve
    exact hm'
  | upward hfound =>
    obtain ⟨found', hfound', hresolve⟩ := Prog.except_bind_eq_ok.mp hresolve
    obtain rfl := Except.ok.inj (hfound.symm.trans hfound')
    exact hresolve

/-- An exec after an import, from its manifest, which nobody has touched since, and in
its environment. -/
structure ExecAfter (yaml : YamlCpp) (target : Target) (t : ImportState (Session F)) (later : ExecSurroundings)
    (files : ManifestFiles) (args : ExecArgs) (u : ExecState (Contended F)) : Prop where
  fromManifest : args.project.isSome ∨ args.env.isSome ∨ args.raw = []
  found : ∃ path, FindsManifest later args.project path ∧ later.canonical path = .ok target.located.writePath
  file : files target.located.writePath = t.files target.located.writePath
  env : ∀ m env, resolveManifest yaml later files args.project = .ok m →
    resolveEnvIn later u.environ args m = .ok env → env = target.env

/-- Nobody has touched the key of the pair since the import, and nobody touches it
while the exec fetches. -/
structure KeyLeft (target : Target) (t : ImportState (Session F)) (u : ExecState (Contended F))
    (pair : Bytes × Bytes) : Prop where
  stored :
    u.session.session.world.store.data[target.key pair.1]? = t.session.world.store.data[target.key pair.1]?
  others : ∀ n, ∀ other ∈ u.session.others n, Other.Leaves [(target.key pair.1, pair.2)] other

section

variable {yaml : YamlCpp} {args : ImportArgs} {around : Surroundings} {target : Target}
    {t : ImportState (Session F)}
  {later : ExecSurroundings} {files : ManifestFiles} {execArgs : ExecArgs} {u u' : ExecState (Contended F)}

/-- Each imported variable is one of those that the exec sets, from its key. -/
theorem ExecAfter.targets {newText : Bytes} (h : ExecAfter yaml target t later files execArgs u)
    (hfile : t.files target.located.writePath = some newText)
    (hnames : NamesSecrets yaml newText target.located.project target.env
      (target.pairs.map fun pair => (pair.1, pair.1))) {scope : ExecScope}
    (hscope : execScope yaml later files execArgs u.environ = .ok scope) :
    ∀ pair ∈ target.pairs, (pair.1, target.key pair.1) ∈ scope.targets := by
  obtain ⟨path, hfinds, hreal⟩ := h.found
  simp only [execScope, if_pos h.fromManifest] at hscope
  obtain ⟨m, hresolve, hscope⟩ := Prog.except_bind_eq_ok.mp hscope
  obtain ⟨_, -, hscope⟩ := Prog.except_bind_eq_ok.mp hscope
  obtain ⟨env, henv, hscope⟩ := Prog.except_bind_eq_ok.mp hscope
  obtain ⟨entries, hentries, hscope⟩ := Prog.except_bind_eq_ok.mp hscope
  obtain rfl := Except.ok.inj hscope
  obtain rfl := h.env m env hresolve henv
  have hload := hfinds.load hresolve
  obtain ⟨contents, hcontents, hparsed⟩ := Prog.except_bind_eq_ok.mp hload
  obtain ⟨real, hreal', hcontents⟩ := Prog.except_bind_eq_ok.mp hcontents
  obtain rfl := Except.ok.inj (hreal.symm.trans hreal')
  obtain ⟨_, -, hcontents⟩ := Prog.except_bind_eq_ok.mp hcontents
  rw [h.file, hfile] at hcontents
  obtain rfl := Except.ok.inj hcontents
  obtain ⟨m', entries', hparsed', hproject, hentries', hpairs⟩ := hnames path
  obtain rfl := Except.ok.inj (hparsed.symm.trans hparsed')
  obtain rfl : entries' = entries := by simpa [entriesFor, hentries'] using hentries
  intro pair hpair
  obtain ⟨e, hfound, hvar, hpath⟩ := hpairs _ (List.mem_map_of_mem hpair)
  exact List.mem_map.mpr ⟨e, List.mem_of_find?_eq_some hfound, Prod.ext hvar hpath⟩

/-- A name that all of its sources take from one key. -/
theorem sourceOf_eq {scope : ExecScope} {stored : Bytes → Option Bytes} {name key value : Bytes}
    (hmem : (name, key) ∈ scope.targets) (honly : ∀ item ∈ wanted scope execArgs, item.1 = name → item.2 = key)
    (hvalue : stored key = some value) : sourceOf scope execArgs stored name = some value := by
  have hlast {items : KeyValues} {path : Bytes} (hitems : ∀ item ∈ items, item ∈ wanted scope execArgs)
      (h : lastOf name items = some path) : path = key :=
    honly (name, path) (hitems _ (mem_of_lastOf h)) rfl
  unfold sourceOf
  cases hraw : lastOf name execArgs.targets with
  | some path =>
    obtain rfl := hlast (fun item => List.mem_append_right _) hraw
    simp [hvalue]
  | none =>
    cases hentry : lastOf name scope.targets with
    | some path =>
      obtain rfl := hlast (fun item => List.mem_append_left _) hentry
      simp [hvalue]
    | none => exact absurd rfl (lastOf_eq_none_iff.mp hentry _ hmem)

/-- What an import has stored and declared, the program of an exec that starts later
has in its environment, unless it is told to take that variable from another key. -/
theorem import_then_exec (hparse : c.json.ParseUndoesDump) (hok : ∃ r, okResponse c.json = .ok r)
    (hapart : c.json.DumpErrsApart) {s : ImportState (Session F)} {imported : Imported}
    (himport : cmdImport c.request c yaml args around s = (.ok imported, t)) :
    ∃ target, Targets yaml args around s.files target ∧
      ∀ {later : ExecSurroundings} {files : ManifestFiles} {argv : List CString} {execArgs : ExecArgs}
        {program : List Bytes} {u u' : ExecState (Contended F)},
        parseExecArgs noArgs (argv.map CString.bytes) = .ok execArgs →
        ExecAfter yaml target t later files execArgs u →
        cmdExec c.contendedLocal yaml later files argv u = (.ok (.started program), u') →
        ∃ scope, execScope yaml later files execArgs u.environ = .ok scope ∧ ∀ pair ∈ target.pairs,
          KeyLeft target t u pair →
          (∀ item ∈ wanted scope execArgs, item.1 = pair.1 → item.2 = target.key pair.1) →
          u'.environ (.of pair.1) = some (.of pair.2) := by
  obtain ⟨target, newText, haccepted, hstored, hfile, hnames⟩ := cmdImport_ok hparse hok himport
  refine ⟨target, haccepted.targets, fun {later files argv execArgs program u u'} hparsed hafter hexec => ?_⟩
  obtain ⟨execArgs', scope, fetched, w, hparsed', hscope, -, hw, hfetched, moments, hread, -, henviron⟩ :=
    cmdExec_reading hparse hapart hexec
  obtain rfl := Except.ok.inj (hparsed.symm.trans hparsed')
  refine ⟨scope, hscope, fun pair hpair hleft honly => ?_⟩
  have hmem := hafter.targets hfile hnames hscope pair hpair
  have hholding : Holding [(target.key pair.1, pair.2)] u.session.session.world := by
    refine List.forall_mem_singleton.mpr ?_
    rw [hleft.stored, hstored.values pair hpair]
  obtain ⟨hbetween, -⟩ := hread _ (List.mem_append_left _ hmem)
  have hfound := getMany_holding hparse hholding hleft.others hfetched hbetween _ (List.mem_singleton_self _)
  have hvalue : readMoment moments (target.key pair.1) = some pair.2 := storedIn_eq_some.mpr hfound
  have hsettable := (execScope_settable hscope).2 _ hmem
  rw [henviron pair.1 hsettable.ne_injected hsettable.noNul, sourceOf_eq hmem honly hvalue]
  rfl

end

def importExecTable : List (Bytes × Json) := importTable ++
  [(braced "\"key\":\"e/p/A\",\"op\":\"get\",\"token\":\"t\"",
      requestObject (text "t") (text "get") (text "e/p/A") none),
    (braced "\"ok\":true,\"value\":\"x\"",
      .object [(text "ok", .boolean true), (text "value", .string (text "x"))])]

def importExecChannel : Channel := ⟨tableOf importExecTable, text "sock", text "t", text "t"⟩

def importBefore : Except ImportError Imported × ImportState (Session (storeFormat taggedBoxes)) :=
  cmdImport importExecChannel.request importExecChannel (loadOnly importedText importedTree) importArgs
    importSurroundings importStart

theorem importBefore_done : importBefore.1 = .ok ⟨1, text "e/p/", 0, text "/w/.secretov.yaml"⟩ ∧
    importBefore.2.files (text "/w/.secretov.yaml") = some importedText ∧
    importBefore.2.session.world.store.data[text "e/p/A"]? = some (.string (text "x")) := by
  decide +kernel

def afterImport : ExecSurroundings :=
  { execSurroundings with findManifestUpward := .ok (some (text "/w/.secretov.yaml")) }

def filesAfterImport : ManifestFiles := fun path =>
    if path = text "/w/.secretov.yaml" then some importedText else none

def dataAfterImport : Data := Std.ExtTreeMap.insert ∅ (text "e/p/A") (.string (text "x"))

/-- `exec -e e -- prog`, while another client deletes another key. -/
def execAfterImport : ExecState (Contended (storeFormat taggedBoxes)) where
  session := ⟨⟨{ sampleStart with store := { sampleStart.store with data := dataAfterImport } },
    fun _ => .connected (.replies sampleTurn)⟩,
    fun n => if n = 0 then [⟨.delete (text "e/p/B"), sampleTurn⟩] else [], []⟩
  environ _ := none
  setenvs := []

def argsAfterImport : ExecArgs := ⟨none, some (text "e"), false, [], [text "prog"]⟩

theorem eq_of_fst_eq {α β : Type} {p : α × β} {a : α} (h : p.1 = a) : p = (a, p.2) := by rw [← h]

theorem import_then_exec_sample : ∃ u',
    cmdExec importExecChannel.contendedLocal (loadOnly importedText importedTree) afterImport
      filesAfterImport ([text "-e", text "e", text "--", text "prog"].map CString.of) execAfterImport =
      (.ok (.started [text "prog"]), u') ∧ u'.environ (.of (text "A")) = some (.of (text "x")) := by
  have hok : (okResponse importExecChannel.json).isOk = true := by decide +kernel
  obtain ⟨himported, hfiles, hdata⟩ := importBefore_done
  have himport : cmdImport importExecChannel.request importExecChannel (loadOnly importedText importedTree)
      importArgs
      importSurroundings importStart = (.ok ⟨1, text "e/p/", 0, text "/w/.secretov.yaml"⟩, importBefore.2) := by
    rw [← eq_of_fst_eq himported, importBefore]
  obtain ⟨⟨located, env, pairs⟩, ⟨hload, henv, contents, hcontents, hpairs⟩, hexec⟩ :=
    import_then_exec (c := importExecChannel) (tableOf_parseUndoesDump _) (Prog.except_exists_of_isOk hok)
      (tableOf_dumpErrsApart _) himport
  have hlocated : (loadLocated (loadOnly importedText importedTree) importArgs importSurroundings
      importStart.files).map (fun located => (located.writePath, located.project)) =
        .ok (text "/w/.secretov.yaml", text "p") := by decide +kernel
  rw [hload] at hlocated
  obtain ⟨hwrite, hproject⟩ := Prod.mk.inj (Except.ok.inj hlocated)
  obtain rfl : text "e" = env := Except.ok.inj henv
  obtain rfl := Except.ok.inj hcontents
  have hdotenv : (parseDotenv (text "A=x\n")).1 = .ok [(text "A", text "x")] := by decide +kernel
  obtain rfl := Except.ok.inj (hdotenv.symm.trans hpairs)
  have hkey : Target.key ⟨located, text "e", [(text "A", text "x")]⟩ (text "A") = text "e/p/A" := by
    have hproject : located.project = text "p" := hproject
    simp only [Target.key, hproject]
    rfl
  have hafter : ExecAfter (loadOnly importedText importedTree) ⟨located, text "e", [(text "A", text "x")]⟩
      importBefore.2 afterImport filesAfterImport argsAfterImport execAfterImport := by
    refine ⟨.inr (.inl rfl), ⟨text "/w/.secretov.yaml", .upward rfl, congrArg Except.ok hwrite.symm⟩, ?_,
      fun m env _ henv => (Except.ok.inj henv).symm⟩
    have hwrite : located.writePath = text "/w/.secretov.yaml" := hwrite
    rw [hwrite, hfiles]
    rfl
  have hleft : KeyLeft ⟨located, text "e", [(text "A", text "x")]⟩ importBefore.2 execAfterImport
      (text "A", text "x") := by
    refine ⟨?_, fun n other hother => ?_⟩
    · rw [hkey, hdata]
      decide
    · simp only [execAfterImport] at hother
      split_ifs at hother
      · obtain rfl := List.mem_singleton.mp hother
        refine List.forall_mem_singleton.mpr ?_
        dsimp only
        rw [hkey]
        decide
      · cases hother
  have hstarted : (cmdExec importExecChannel.contendedLocal (loadOnly importedText importedTree) afterImport
      filesAfterImport ([text "-e", text "e", text "--", text "prog"].map CString.of) execAfterImport).1 =
        .ok (.started [text "prog"]) := by decide +kernel
  obtain ⟨u', hrun⟩ : ∃ u', cmdExec importExecChannel.contendedLocal (loadOnly importedText importedTree)
    afterImport filesAfterImport ([text "-e", text "e", text "--", text "prog"].map CString.of) execAfterImport =
      (.ok (.started [text "prog"]), u') := ⟨_, eq_of_fst_eq hstarted⟩
  obtain ⟨scope, hscope, hvalues⟩ := @hexec _ _ _ argsAfterImport _ _ _ (by decide) hafter hrun
  refine ⟨u', hrun, ?_⟩
  refine hvalues (text "A", text "x") (List.mem_singleton_self _) hleft fun item hitem _ => ?_
  have htargets : (execScope (loadOnly importedText importedTree) afterImport filesAfterImport argsAfterImport
      execAfterImport.environ).map ExecScope.targets = .ok [(text "A", text "e/p/A")] := by decide +kernel
  rw [hscope] at htargets
  have hitem : item ∈ scope.targets := (List.mem_append.mp hitem).elim id fun h => by cases h
  rw [Except.ok.inj htargets] at hitem
  obtain rfl := List.mem_singleton.mp hitem
  exact hkey.symm

end Secretov
