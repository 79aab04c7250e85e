import Secretov.DurableStore
import Secretov.PassphraseCommands

/-! `secretov init` (client.cpp), the start of the daemon (daemon.cpp) and the requests
after it: the passphrase and the token that one hands on to the other. -/

namespace Secretov

variable {S : Sodium}

structure Paths where
  store : Bytes
  token : Bytes
  socket : Bytes

/-- The files of a user, and the daemon that serves them: its store and its token. -/
structure Installation (F : Format S) where
  disk : Option F.File
  token : Option Bytes
  daemon : Option (Store S × Bytes)

/-- An init, with what becomes of its calls. -/
structure InitCall (S : Sodium) where
  stdin : Stdin
  console : Console
  mkdirFails : Option Bytes
  env : Env S
  now : UInt64
  raw : Fixed 32
  tokenFails : Option Bytes

/-- A start of the daemon, with what becomes of its calls. -/
structure StartCall (S : Sodium) where
  stdin : Stdin
  console : Console
  limitFails : Option Bytes
  opening : Env S
  now : UInt64
  rotating : Env S
  tokenFails : Option Bytes
  listenFails : Option Bytes

variable {F : Format S}

abbrev InstallationM (F : Format S) (α : Type) := Prog Error (Installation F) α

def onStoreFile {α : Type} (m : DiskM F α) : InstallationM F α :=
  Prog.zoom Installation.disk (fun disk s => { s with disk }) m

/-- A call that throws this, if anything. -/
def orFails (fails : Option Bytes) : InstallationM F Unit :=
  match fails with
  | some what => Prog.throw (.runtimeError what)
  | none => pure ()

section

variable (json : Nlohmann) (hex : Bytes → Bytes) (paths : Paths)

/-- `cmd_init`, and what it prints. `hex` stands for `sodium_bin2hex`. -/
def cmdInit (call : InitCall S) : InstallationM F Bytes := do
  let passphrase ← Prog.ofExcept
    (readNewPassphrase call.stdin (text "Passphrase: ") (text "Confirm passphrase: ") call.console).1
  orFails call.mkdirFails
  let _ ← onStoreFile (Store.create json call.env paths.store passphrase call.now)
  orFails call.tokenFails
  Prog.modify fun s => { s with token := some (hex call.raw.1) }
  return text "secretov initialized\n  store: " ++ paths.store ++ text "\n  token: " ++ paths.token ++
    text "\n  socket: " ++ paths.socket ++ text "\nStart the daemon with: secretov daemon\n"

def readFileString (path : Bytes) (fails contents : Option Bytes) : Except Error Bytes :=
  match fails, contents with
  | none, some contents => .ok contents
  | _, _ => .error (.runtimeError (text "open '" ++ path ++ text "': " ++ fails.getD []))

/-- The token that the daemon expects. -/
def expectedToken (fails contents : Option Bytes) : Except Error Bytes :=
  clientToken paths.token ((readFileString paths.token fails contents).mapError fun e =>
    .runtimeError (text "cannot read token file '" ++ paths.token ++ text "': " ++ e.what ++
      text "\n  (run 'secretov init' first)"))

/-- The rotation of a key that is too old. -/
def rotateOnUnlock (call : StartCall S) (passphrase : Bytes) (store : Store S) :
    InstallationM F (Store S) := fun s =>
  if rotateDue call.now store.env.keyCreatedAt then
    let r := Store.rotate json call.rotating passphrase call.now (⟨store, s.disk⟩ : World F)
    match r.1 with
    | .ok _ => (.ok r.2.store, { s with disk := r.2.disk })
    | .error e => (.error (.runtimeError (text "auto-rotation failed: " ++ e.what)), { s with disk := r.2.disk })
  else (.ok store, s)

/-- `run_daemon`, up to its loop. -/
def runDaemon (call : StartCall S) : InstallationM F Unit := do
  orFails (call.limitFails.map (text "setrlimit(RLIMIT_CORE) failed: " ++ ·))
  Prog.ofExcept (Prog.throwIf (← Prog.get).daemon.isSome
    (.runtimeError (text "daemon already running at " ++ paths.socket)))
  let passphrase ← Prog.ofExcept (readPassphrase call.stdin (text "Passphrase: ") call.console).1
  let store ← Prog.tryCatch (onStoreFile (Store.open json call.opening paths.store passphrase)) fun e =>
    Prog.throw (.runtimeError (text "cannot open store: " ++ e.what ++
      text "\n  (run 'secretov init' first, or check your passphrase)"))
  let store ← rotateOnUnlock json call passphrase store
  let token ← Prog.ofExcept (expectedToken paths call.tokenFails (← Prog.get).token)
  orFails call.listenFails
  Prog.modify fun s => { s with daemon := some (store, token) }

end

inductive InstallationEvent (S : Sodium) where
  | init (call : InitCall S)
  | start (call : StartCall S)
  | handle (turn : Turn S) (line : Bytes)
  | stop

section

variable (json : Nlohmann) (hex : Bytes → Bytes) (paths : Paths)

/-- The daemon handles a line that any client has sent. -/
def Installation.handle (turn : Turn S) (line : Bytes) (s : Installation F) : Installation F :=
  match s.daemon with
  | none => s
  | some (store, token) =>
    let r := respond json token turn line (⟨store, s.disk⟩ : World F)
    { s with disk := r.2.disk, daemon := some (r.2.store, token) }

def stepInstallation (event : InstallationEvent S) (s : Installation F) : Installation F :=
  match event with
  | .init call => (cmdInit json hex paths call s).2
  | .start call => (runDaemon json paths call s).2
  | .handle turn line => s.handle json turn line
  | .stop => { s with daemon := none }

def runInstallation (events : List (InstallationEvent S)) (s : Installation F) : Installation F :=
  events.foldl (fun s event => stepInstallation json hex paths event s) s

end

/-! A store and its file. -/

/-- The store, as the file holds it for this vault. It can be written again. -/
structure OnFile (json : Nlohmann) (path : Bytes) (store : Store S) (disk : Option F.File)
    (vault : Vault) : Prop where
  tracks : Tracks json (⟨store, disk⟩ : World F) vault
  path : store.path = path
  dumps : ∃ plaintext, json.dump (.object store.data.toList) = .ok plaintext

variable {json : Nlohmann} {hex : Bytes → Bytes} {paths : Paths} {path : Bytes} {store : Store S}
    {disk : Option F.File} {vault : Vault}

theorem Persisted.dumps {env : Env S} (h : Persisted json env store disk) :
    ∃ plaintext, json.dump (.object store.data.toList) = .ok plaintext :=
  h.imp fun _ h => h.1

theorem StoreOp.run_dumps {env : Env S} {op : StoreOp} {w w' : World F} (h : op.run json env w = (.ok (), w')) :
    w' = w ∨ ∃ plaintext, json.dump (.object w'.store.data.toList) = .ok plaintext := by
  cases op with
  | set key value => exact .inr (Store.set_ok h).2.dumps
  | remove key => exact (StoreOp.remove_ok h).imp And.right fun h => h.2.dumps
  | rotate passphrase now => exact .inr (Store.rotate_ok h).2.2.dumps
  | changePassphrase oldPass newPass now => exact .inr (Store.changePassphrase_ok h).2.2.2.dumps

/-- The passphrases derive one key, with the parameters of the store. -/
def DerivesSame (store : Store S) (passphrase passphrase' : Bytes) : Prop :=
  S.pwhash passphrase store.env.salt store.env.opslimit store.env.memlimit =
    S.pwhash passphrase' store.env.salt store.env.opslimit store.env.memlimit

/-- An operation of the store that throws leaves the file. -/
theorem commit_error_disk {plan : StorePlan F} {env : Env S} {disk disk' : Option F.File} {e : Error}
    (h : commit env plan disk = (.error e, disk')) : disk' = disk := by
  rcases Prog.bind_ofExcept_eq_error.mp h with ⟨-, hdisk⟩ | ⟨⟨file, store⟩, -, h⟩
  · exact hdisk
  cases file with
  | none => simp at h
  | some contents =>
    rcases Prog.bind_eq_error.mp h with h | ⟨_, _, -, h⟩
    · exact writeFileAtomic_error h
    · simp at h

namespace OnFile

theorem run (hs : S.Ideal) (hj : json.ParseUndoesDump) (hf : F.DecodeUndoesEncode) {env : Env S} {op : StoreOp}
    (h : OnFile json path store disk vault) {w : World F} (hrun : op.run json env ⟨store, disk⟩ = (.ok (), w)) :
    OnFile json path w.store w.disk (vault.after op) := by
  refine ⟨h.tracks.ok hs hj hf hrun, (StoreOp.run_path hrun).trans h.path, ?_⟩
  rcases StoreOp.run_dumps hrun with rfl | hdumps
  · exact h.dumps
  · exact hdumps

theorem create (hs : S.Ideal) (hj : json.ParseUndoesDump) (hf : F.DecodeUndoesEncode) {env : Env S}
    {passphrase : Bytes} {now : UInt64} {disk' : Option F.File}
    (h : Store.create json env path passphrase now disk = (.ok store, disk')) :
    OnFile json path store disk' (.fresh passphrase) := by
  obtain ⟨-, hpersisted, hstore⟩ := Store.create_ok h
  exact ⟨create_tracks hs hj hf h, by rw [hstore], hpersisted.dumps⟩

/-- An open of the file writes nothing, and gives this store or none. -/
theorem open_cases (hs : S.Ideal) (h : OnFile json path store disk vault) {env : Env S} {passphrase : Bytes}
    {r : Except Error (Store S)} {disk' : Option F.File}
    (hopen : Store.open json env path passphrase disk = (r, disk')) :
    disk' = disk ∧ ∀ store', r = .ok store' → store' = store ∧ DerivesSame store passphrase vault.passphrase := by
  obtain ⟨raw, nonce, box, hdisk, hdecode, -⟩ := h.tracks.unlocks.file
  obtain rfl : disk = some raw := hdisk
  obtain rfl := h.path
  cases r with
  | error e =>
    rw [open_eq_commit] at hopen
    exact ⟨commit_error_disk hopen, fun store' hstore => by cases hstore⟩
  | ok store' =>
    obtain ⟨hdisk, -, -, hwrapped, -⟩ := Store.open_version2_ok hdecode hopen
    refine ⟨hdisk, fun store'' hstore => ?_⟩
    obtain rfl := Except.ok.inj hstore
    rw [open_eq_commit] at hopen
    obtain ⟨⟨file, planned⟩, hplan, hcommit⟩ := Prog.bind_ofExcept_eq_ok.mp hopen
    obtain ⟨rfl, rfl⟩ := openPlan_tracks hs h.tracks hplan
    obtain rfl := Except.ok.inj (Prod.mk.inj hcommit).1
    exact ⟨rfl, hs.openKey_unique _ _ _ _ _ _ _ _ _ hwrapped h.tracks.unlocks.wrapped⟩

theorem open_eq (h : OnFile json path store disk vault) {env : Env S} (henv : env.Faultless) {passphrase : Bytes}
    (hsame : DerivesSame store passphrase vault.passphrase) :
    Store.open json env path passphrase disk = (.ok store, disk) := by
  have hunlocks : Unlocks json (⟨store, disk⟩ : World F) passphrase := by
    refine ⟨h.tracks.unlocks.params, ?_, h.tracks.unlocks.file⟩
    rw [hsame]
    exact h.tracks.unlocks.wrapped
  rw [← h.path]
  exact hunlocks.open_eq fun call _ => henv call

theorem rotate_eq (h : OnFile json path store disk vault) {env : Env S}
    (henv : env.Faultless) {passphrase : Bytes}
    (hsame : DerivesSame store passphrase vault.passphrase) (now : UInt64) :
    (Store.rotate json env passphrase now (⟨store, disk⟩ : World F)).1 = .ok () := by
  obtain ⟨plaintext, hdump⟩ := h.dumps
  have hderive : deriveKdfKey env .unwrapKdfAlloc .unwrapKdf passphrase store.env.toHeader =
      .ok (S.pwhash vault.passphrase store.env.salt store.env.opslimit store.env.memlimit) := by
    rw [← hsame]
    simp [deriveKdfKey, allocGuarded, henv .unwrapKdfAlloc, henv .unwrapKdf, bind, Except.bind]
  have hunwrap : unwrap env store.env passphrase (text "wrong passphrase") =
      .ok (S.pwhash vault.passphrase store.env.salt store.env.opslimit store.env.memlimit, store.key) := by
    simp [unwrap, allocGuarded, henv .unwrapAlloc, hderive, h.tracks.unlocks.wrapped, bind, Except.bind]
  simp [Store.rotate, Store.commitNewKey, Prog.bind_apply, hunwrap, allocGuarded, henv .dataKeyAlloc, onDisk,
    Prog.zoom, persist, hdump, writeFileAtomic, henv .write]

end OnFile

/-! What any events keep. -/

/-- The vault of the store file, before and after an event. -/
inductive Evolves (json : Nlohmann) : InstallationEvent S → Option Vault → Option Vault → Prop
  | same (event : InstallationEvent S) (vault : Option Vault) : Evolves json event vault vault
  | created {call : InitCall S} {passphrase : Bytes}
      (hread : (readNewPassphrase call.stdin (text "Passphrase: ") (text "Confirm passphrase: ") call.console).1 =
        .ok passphrase) : Evolves json (.init call) none (some (.fresh passphrase))
  | wrote {turn : Turn S} {line : Bytes} {req : Request} {op : StoreOp} {vault : Vault}
      (hreq : parseRequest json line = .ok (some req)) (hop : req.storeOp turn.now = some op) :
      Evolves json (.handle turn line) (some vault) (some (vault.after op))

inductive EvolvesAll (json : Nlohmann) : List (InstallationEvent S) → Option Vault → Option Vault → Prop
  | nil (vault : Option Vault) : EvolvesAll json [] vault vault
  | cons {event : InstallationEvent S} {events : List (InstallationEvent S)} {vault next last : Option Vault}
      (hfirst : Evolves json event vault next) (hrest : EvolvesAll json events next last) :
      EvolvesAll json (event :: events) vault last

/-- The file is that of the vault. A running daemon has its store, and the token that
every client reads. -/
structure Installation.Sound (json : Nlohmann) (hex : Bytes → Bytes) (paths : Paths) (s : Installation F)
    (vault : Option Vault) : Prop where
  stored : match vault with
    | none => s.disk = none
    | some vault => ∃ store, OnFile json paths.store store s.disk vault
  running : ∀ store token, s.daemon = some (store, token) →
    (∃ v, vault = some v ∧ OnFile json paths.store store s.disk v) ∧
      ∃ contents, s.token = some contents ∧ clientToken paths.token (.ok contents) = .ok token
  minted : ∀ contents, s.token = some contents → ∃ raw : Fixed 32, contents = hex raw.1

section

variable {s : Installation F} {vault : Option Vault}

theorem orFails_apply (fails : Option Bytes) (s : Installation F) :
    orFails fails s = (match fails with
      | some what => .error (.runtimeError what)
      | none => .ok (), s) := by
  cases fails <;> rfl

theorem Installation.Sound.off (h : s.Sound json hex paths vault) :
    Installation.Sound json hex paths { s with daemon := none } vault :=
  ⟨h.stored, fun store token hdaemon => (by cases hdaemon), h.minted⟩

/-- The daemon changes the store through an operation that succeeds, or not at all. -/
theorem respond_world (token : Bytes) (turn : Turn S) (line : Bytes) (w : World F) :
    (respond json token turn line w).2 = w ∨ ∃ req op, parseRequest json line = .ok (some req) ∧
      req.storeOp turn.now = some op ∧ op.run json turn.env w = (.ok (), (respond json token turn line w).2) := by
  unfold respond
  simp only [Prog.bind_apply, Prog.ofExcept_apply]
  rcases hreq : parseRequest json line with e | _ | req
  · exact .inl rfl
  · exact .inl rfl
  dsimp only
  split_ifs
  · exact .inl rfl
  have hcaught : (Prog.tryCatch (dispatch json turn.env req turn.now)
      (fun e => Prog.ofExcept (errorResponse json e.what)) w).2 = (dispatch json turn.env req turn.now w).2 := by
    unfold Prog.tryCatch
    rcases dispatch json turn.env req turn.now w with ⟨e | reply, w'⟩ <;> rfl
  rw [hcaught, dispatch_storeOp]
  cases hop : req.storeOp turn.now with
  | none => exact .inl rfl
  | some op =>
    dsimp only
    rcases hrun : op.run json turn.env w with ⟨e | _, w'⟩
    · exact .inl (Tracks.error hrun)
    · exact .inr ⟨req, op, rfl, hop, hrun⟩

theorem expectedToken_ok {fails contents : Option Bytes} {token : Bytes}
    (h : expectedToken paths fails contents = .ok token) :
    ∃ c, contents = some c ∧ clientToken paths.token (.ok c) = .ok token := by
  unfold expectedToken readFileString at h
  cases fails with
  | some what => cases h
  | none =>
    cases contents with
    | none => cases h
    | some c => exact ⟨c, rfl, h⟩

/-- Nothing opens where there is no file. -/
theorem open_none {env : Env S} {passphrase : Bytes} {r : Except Error (Store S)} {disk : Option F.File}
    (h : Store.open json env path passphrase none = (r, disk)) : disk = none ∧ ∃ e, r = .error e := by
  simp only [Store.open, Prog.bind_apply, Prog.ofExcept_apply, Prog.get_apply] at h
  cases hinit : ensureSodium env with
  | error e =>
    rw [hinit] at h
    obtain ⟨rfl, rfl⟩ := Prod.mk.inj h
    exact ⟨rfl, e, rfl⟩
  | ok _ =>
    rw [hinit] at h
    cases hread : env.fault .readFile <;>
      · rw [hread] at h
        obtain ⟨rfl, rfl⟩ := Prod.mk.inj h
        exact ⟨rfl, _, rfl⟩

/-- How a start of the daemon goes, from the open on. -/
theorem Installation.Sound.unlock (hs : S.Ideal) (h : s.Sound json hex paths vault) {call : StartCall S}
    {passphrase : Bytes}
    {r : Except Error (Store S)} {disk : Option F.File}
    (hopen : Store.open json call.opening paths.store passphrase s.disk = (r, disk)) :
    disk = s.disk ∧ ∀ store, r = .ok store → ∃ v, vault = some v ∧ OnFile json paths.store store s.disk v ∧
      DerivesSame store passphrase v.passphrase := by
  cases vault with
  | none =>
    have hnone : s.disk = none := h.stored
    rw [hnone] at hopen ⊢
    obtain ⟨rfl, e, rfl⟩ := open_none hopen
    exact ⟨rfl, fun store hstore => by cases hstore⟩
  | some v =>
    obtain ⟨store, hfile⟩ := h.stored
    obtain ⟨rfl, hok⟩ := hfile.open_cases hs hopen
    refine ⟨rfl, fun store' hstore => ?_⟩
    obtain ⟨rfl, hsame⟩ := hok store' hstore
    exact ⟨v, rfl, hfile, hsame⟩

variable (hs : S.Ideal) (hj : json.ParseUndoesDump) (hf : F.DecodeUndoesEncode)
include hs hj hf

theorem Installation.Sound.init (h : s.Sound json hex paths vault) (call : InitCall S) :
    ∃ next, Evolves json (.init call) vault next ∧
    (cmdInit json hex paths call s).2.Sound json hex paths next := by
  have hsame : ∃ next, Evolves json (.init call) vault next ∧ s.Sound json hex paths next := ⟨vault, .same _ _, h⟩
  simp only [cmdInit, Prog.bind_apply, Prog.ofExcept_apply, orFails_apply, onStoreFile, Prog.zoom]
  cases hread : (readNewPassphrase call.stdin (text "Passphrase: ") (text "Confirm passphrase: ")
    call.console).1 with
  | error e => exact hsame
  | ok passphrase =>
    cases call.mkdirFails with
    | some what => exact hsame
    | none =>
      dsimp only
      rcases hcreate : Store.create json call.env paths.store passphrase call.now s.disk with ⟨e | store, disk⟩
      · rw [create_eq_commit] at hcreate
        obtain rfl := commit_error_disk hcreate
        exact hsame
      obtain ⟨hdisk, -⟩ := Store.create_ok hcreate
      have hfile : OnFile json paths.store store disk (.fresh passphrase) := .create hs hj hf hcreate
      -- no store, so no daemon
      have hdaemon : s.daemon = none := by
        by_contra hrunning
        obtain ⟨⟨running, token⟩, hrunning⟩ := Option.ne_none_iff_exists'.mp hrunning
        obtain ⟨⟨v, -, hfile⟩, -⟩ := h.running running token hrunning
        obtain ⟨raw, _, _, hraw, -⟩ := hfile.tracks.unlocks.file
        cases hdisk.symm.trans hraw
      have hvault : vault = none := by
        cases vault with
        | none => rfl
        | some v =>
          obtain ⟨store, hfile⟩ := h.stored
          obtain ⟨raw, _, _, hraw, -⟩ := hfile.tracks.unlocks.file
          cases hdisk.symm.trans hraw
      subst hvault
      refine ⟨some (.fresh passphrase), .created hread, ?_⟩
      cases call.tokenFails with
      | some what =>
        exact ⟨⟨store, hfile⟩, fun running token hrunning => (by cases hdaemon.symm.trans hrunning), h.minted⟩
      | none =>
        refine ⟨⟨store, hfile⟩, fun running token hrunning => (by cases hdaemon.symm.trans hrunning), ?_⟩
        intro contents hcontents
        exact ⟨call.raw, (Option.some.inj hcontents).symm⟩

theorem Installation.Sound.handle (h : s.Sound json hex paths vault) (turn : Turn S) (line : Bytes) :
    ∃ next, Evolves json (.handle turn line) vault next ∧
    (s.handle json turn line).Sound json hex paths next := by
  unfold Installation.handle
  cases hdaemon : s.daemon with
  | none => exact ⟨vault, .same _ _, h⟩
  | some daemon =>
    obtain ⟨store, token⟩ := daemon
    obtain ⟨⟨v, rfl, hfile⟩, htoken⟩ := h.running store token hdaemon
    dsimp only
    rcases respond_world token turn line (⟨store, s.disk⟩ : World F) with
      hsame | ⟨req, op, hreq, hop, hrun⟩
    · rw [hsame]
      refine ⟨some v, .same _ _, h.stored, fun store' token' hrunning => ?_, h.minted⟩
      obtain ⟨rfl, rfl⟩ := Prod.mk.inj (Option.some.inj hrunning)
      exact ⟨⟨v, rfl, hfile⟩, htoken⟩
    · have hfile' := hfile.run hs hj hf hrun
      refine ⟨some (v.after op), .wrote hreq hop, ⟨_, hfile'⟩, fun store' token' hrunning => ?_, h.minted⟩
      obtain ⟨rfl, rfl⟩ := Prod.mk.inj (Option.some.inj hrunning)
      exact ⟨⟨_, rfl, hfile'⟩, htoken⟩

/-- The rotation at a start keeps the vault. -/
theorem OnFile.rotateOnUnlock (call : StartCall S) (passphrase : Bytes) {store : Store S} {v : Vault}
    (hfile : OnFile json paths.store store s.disk v) : ∃ disk,
      (Secretov.rotateOnUnlock json call passphrase store s).2 = { s with disk } ∧
        (∃ store', OnFile json paths.store store' disk v) ∧
        ∀ store', (Secretov.rotateOnUnlock json call passphrase store s).1 = .ok store' →
          OnFile json paths.store store' disk v := by
  unfold Secretov.rotateOnUnlock
  split_ifs
  · rcases hrotate : Store.rotate json call.rotating passphrase call.now
      (⟨store, s.disk⟩ : World F) with ⟨e | _, w⟩
    · obtain rfl := Store.rotate_error hrotate
      exact ⟨s.disk, rfl, ⟨store, hfile⟩, fun store' hstore => by cases hstore⟩
    · have hrun : (StoreOp.rotate passphrase call.now).run json call.rotating ⟨store, s.disk⟩ = (.ok (), w) :=
        hrotate
      have hfile' := hfile.run hs hj hf hrun
      refine ⟨w.disk, rfl, ⟨w.store, hfile'⟩, fun store' hstore => ?_⟩
      obtain rfl := Except.ok.inj hstore
      exact hfile'
  · refine ⟨s.disk, rfl, ⟨store, hfile⟩, fun store' hstore => ?_⟩
    obtain rfl := Except.ok.inj hstore
    exact hfile

theorem Installation.Sound.start (h : s.Sound json hex paths vault) (call : StartCall S) :
    (runDaemon json paths call s).2.Sound json hex paths vault := by
  simp only [runDaemon, Prog.bind_apply, Prog.ofExcept_apply, Prog.get_apply, orFails_apply, onStoreFile,
    Prog.zoom, Prog.tryCatch]
  cases call.limitFails with
  | some what => exact h
  | none =>
    dsimp only [Option.map_none]
    cases hdaemon : s.daemon with
    | some running => exact h
    | none =>
      have hrunning : Prog.throwIf ((none : Option (Store S × Bytes)).isSome = true)
        (Error.runtimeError (text "daemon already running at " ++ paths.socket)) = .ok ⟨⟩ := rfl
      rw [hrunning]
      dsimp only
      cases (readPassphrase call.stdin (text "Passphrase: ") call.console).1 with
      | error e => exact h
      | ok passphrase =>
        dsimp only
        rcases hopen : Store.open json call.opening paths.store passphrase s.disk with ⟨e | store, disk⟩
        · obtain ⟨rfl, -⟩ := h.unlock hs hopen
          exact h
        obtain ⟨rfl, hok⟩ := h.unlock hs hopen
        obtain ⟨v, rfl, hfile, -⟩ := hok store rfl
        obtain ⟨disk, hdisk, hstored, hrotated⟩ := hfile.rotateOnUnlock hs hj hf call passphrase
        have hidle : Installation.Sound json hex paths { s with disk } (some v) :=
          ⟨hstored, fun store' token hrunning => (by cases hdaemon.symm.trans hrunning), h.minted⟩
        rcases hrotate : rotateOnUnlock json call passphrase store s with ⟨e | store', t⟩
        · rw [hrotate] at hdisk
          obtain rfl : t = { s with disk } := hdisk
          simp only [hrotate]
          exact hidle
        rw [hrotate] at hdisk hrotated
        obtain rfl : t = { s with disk } := hdisk
        simp only [hrotate]
        cases htoken : expectedToken paths call.tokenFails s.token with
        | error e => exact hidle
        | ok token =>
          dsimp only
          cases call.listenFails with
          | some what => exact hidle
          | none =>
            refine ⟨hstored, fun store'' token' hrunning => ?_, h.minted⟩
            obtain ⟨rfl, rfl⟩ := Prod.mk.inj (Option.some.inj hrunning)
            exact ⟨⟨v, rfl, hrotated store' rfl⟩, expectedToken_ok htoken⟩

theorem Installation.Sound.step (h : s.Sound json hex paths vault) (event : InstallationEvent S) :
    ∃ next, Evolves json event vault next ∧
    (stepInstallation json hex paths event s).Sound json hex paths next := by
  cases event with
  | init call => exact h.init hs hj hf call
  | start call => exact ⟨vault, .same _ _, h.start hs hj hf call⟩
  | handle turn line => exact h.handle hs hj hf turn line
  | stop => exact ⟨vault, .same _ _, h.off⟩

theorem Installation.Sound.run (h : s.Sound json hex paths vault) (events : List (InstallationEvent S)) :
    ∃ last, EvolvesAll json events vault last ∧
    (runInstallation json hex paths events s).Sound json hex paths last := by
  induction events generalizing s vault with
  | nil => exact ⟨vault, .nil vault, h⟩
  | cons event events ih =>
    obtain ⟨next, hfirst, hnext⟩ := h.step hs hj hf event
    obtain ⟨last, hrest, hlast⟩ := ih hnext
    exact ⟨last, .cons hfirst hrest, hlast⟩

end

/-! The token. -/

def IsHexDigit (b : UInt8) : Prop := 48 ≤ b ∧ b ≤ 57 ∨ 97 ≤ b ∧ b ≤ 102

instance (b : UInt8) : Decidable (IsHexDigit b) := inferInstanceAs (Decidable (_ ∨ _))

/-- Two digits for each byte. -/
structure WritesHex (hex : Bytes → Bytes) : Prop where
  length : ∀ raw, (hex raw).length = 2 * raw.length
  digits : ∀ raw, ∀ b ∈ hex raw, IsHexDigit b

theorem WritesHex.rstrip_eq (h : WritesHex hex) (raw : Bytes) : rstrip (hex raw) = hex raw := by
  refine List.rdropWhile_eq_self_iff.mpr fun hne => ?_
  have hlast := h.digits raw _ (List.getLast_mem hne)
  intro hblank
  rcases of_decide_eq_true hblank with hb | hb | hb | hb <;>
    · rw [hb] at hlast
      revert hlast
      decide

theorem WritesHex.clientToken_eq (h : WritesHex hex) (tokenPath : Bytes) (raw : Fixed 32) :
    clientToken tokenPath (.ok (hex raw.1)) = .ok (hex raw.1) := by
  have hlength := h.length raw.1
  rw [raw.2] at hlength
  have hne : hex raw.1 ≠ [] := by
    rw [← List.length_pos_iff]
    omega
  have hstrip : rstrip (hex raw.1) = hex raw.1 := h.rstrip_eq raw.1
  simp only [clientToken, Except.bind, bind, hstrip, Prog.throwIf, if_neg hne]
  rfl

def Installation.nothing : Installation F := ⟨none, none, none⟩

theorem Installation.nothing_sound : (nothing : Installation F).Sound json hex paths none :=
  ⟨rfl, fun store token hdaemon => (by cases hdaemon), fun contents hcontents => by cases hcontents⟩

/-- No call of the start fails. -/
structure StartCall.Faultless (call : StartCall S) : Prop where
  limit : call.limitFails = none
  opening : call.opening.Faultless
  rotating : call.rotating.Faultless
  token : call.tokenFails = none
  listen : call.listenFails = none

theorem rotateOnUnlock_token (call : StartCall S) (passphrase : Bytes) (store : Store S) (s : Installation F) :
    (rotateOnUnlock json call passphrase store s).2.token = s.token := by
  unfold rotateOnUnlock
  split_ifs
  · cases hrotate : (Store.rotate json call.rotating passphrase call.now (⟨store, s.disk⟩ : World F)).1 <;>
      simp only [hrotate]
  · rfl

theorem OnFile.rotateOnUnlock_ok {s : Installation F} {v : Vault} (hfile : OnFile json path store s.disk v)
    {call : StartCall S} (hcall : call.Faultless) {passphrase : Bytes}
    (hsame : DerivesSame store passphrase v.passphrase) :
    ∃ store' disk, Secretov.rotateOnUnlock json call passphrase store s = (.ok store', { s with disk }) := by
  unfold Secretov.rotateOnUnlock
  split_ifs
  · have hok := hfile.rotate_eq hcall.rotating hsame call.now
    simp only [hok]
    exact ⟨_, _, rfl⟩
  · exact ⟨store, s.disk, rfl⟩

theorem Installation.Sound.starts_iff {s : Installation F} {vault : Option Vault} (hs : S.Ideal)
    (hhex : WritesHex hex) (h : s.Sound json hex paths vault) {call : StartCall S} (hcall : call.Faultless) :
    (runDaemon json paths call s).1 = .ok () ↔ s.daemon = none ∧ s.token ≠ none ∧ ∃ passphrase v store,
      (readPassphrase call.stdin (text "Passphrase: ") call.console).1 = .ok passphrase ∧ vault = some v ∧
      OnFile json paths.store store s.disk v ∧ DerivesSame store passphrase v.passphrase := by
  constructor
  · intro hok
    rcases hrun : runDaemon json paths call s with ⟨r, t⟩
    rw [hrun] at hok
    obtain rfl : r = .ok () := hok
    obtain ⟨_, s₁, hlimit, hrun⟩ := Prog.bind_eq_ok.mp hrun
    rw [orFails_apply] at hlimit
    obtain rfl := (Prod.mk.inj hlimit).2
    rw [Prog.bind_get] at hrun
    obtain ⟨_, hidle, hrun⟩ := Prog.bind_ofExcept_eq_ok.mp hrun
    obtain ⟨passphrase, hread, hrun⟩ := Prog.bind_ofExcept_eq_ok.mp hrun
    obtain ⟨store, s₂, hopen, hrun⟩ := Prog.bind_eq_ok.mp hrun
    have hdaemon : s.daemon = none := by simpa using Prog.throwIf_eq_ok hidle
    rcases hstore : Store.open json call.opening paths.store passphrase s.disk with ⟨r, disk⟩
    obtain ⟨rfl, hok⟩ := h.unlock hs hstore
    simp only [Prog.tryCatch, onStoreFile, Prog.zoom, hstore] at hopen
    cases r with
    | error e => cases hopen
    | ok store' =>
      obtain ⟨v, rfl, hfile, hsame⟩ := hok store' rfl
      refine ⟨hdaemon, ?_, passphrase, v, store', hread, rfl, hfile, hsame⟩
      obtain rfl := (Prod.mk.inj hopen).2
      obtain ⟨rotated, t', hrotate, hrun⟩ := Prog.bind_eq_ok.mp hrun
      rw [Prog.bind_get] at hrun
      obtain ⟨token, htoken, -⟩ := Prog.bind_ofExcept_eq_ok.mp hrun
      obtain ⟨contents, hcontents, -⟩ := expectedToken_ok htoken
      have hkept := @rotateOnUnlock_token _ _ json call passphrase store s
      rw [hrotate, hcontents] at hkept
      rw [← hkept]
      exact Option.some_ne_none _
  · rintro ⟨hdaemon, htoken, passphrase, v, store, hread, rfl, hfile, hsame⟩
    obtain ⟨contents, hcontents⟩ := Option.ne_none_iff_exists'.mp htoken
    obtain ⟨raw, rfl⟩ := h.minted contents hcontents
    obtain ⟨store', disk', hrotated⟩ := hfile.rotateOnUnlock_ok hcall hsame
    obtain ⟨disk, token, daemon⟩ := s
    obtain rfl : daemon = none := hdaemon
    obtain rfl : token = some (hex raw.1) := hcontents
    have hexpected : expectedToken paths none (some (hex raw.1)) = .ok (hex raw.1) :=
      hhex.clientToken_eq paths.token raw
    have hidle : Prog.throwIf ((none : Option (Store S × Bytes)).isSome = true)
      (Error.runtimeError (text "daemon already running at " ++ paths.socket)) = .ok ⟨⟩ := rfl
    simp only [runDaemon, Prog.bind_apply, Prog.ofExcept_apply, Prog.get_apply, orFails_apply, onStoreFile,
      Prog.zoom,
      Prog.tryCatch, hcall.limit, Option.map_none, hidle, hread, hfile.open_eq hcall.opening hsame, hrotated,
      hcall.token, hexpected, hcall.listen, Prog.modify_apply]

section

variable {lib : Libsodium}

/-- However it came to run, the daemon expects the token that is in the file, 32 random
bytes in hexadecimal. So it lets in every client that reads the file, whatever it asks. -/
theorem clients_are_let_in (hs : lib.sodium.Ideal) (hhex : WritesHex hex) (hj : json.ParseUndoesDump)
    (events : List (InstallationEvent lib.sodium)) {store : Store lib.sodium} {token : Bytes}
    (hrunning : (runInstallation json hex paths events (.nothing : Installation (storeFormat lib))).daemon =
      some (store, token)) :
    let s := runInstallation json hex paths events (.nothing : Installation (storeFormat lib))
    s.token = some token ∧ clientToken paths.token (.ok token) = .ok token ∧
      (∃ raw : Fixed 32, token = hex raw.1) ∧
      (∀ op key value line turn, serializeRequest json token op key value = .ok line →
        respond json token turn line (⟨store, s.disk⟩ : World (storeFormat lib)) =
          Prog.tryCatch (dispatch json turn.env ⟨token, op, key, value.getD [], [], []⟩ turn.now)
            (fun e => Prog.ofExcept (errorResponse json e.what)) ⟨store, s.disk⟩) ∧
      ∀ (req : PassRequest) line turn, serializeObject json (req.object token) = .ok line →
        respond json token turn line (⟨store, s.disk⟩ : World (storeFormat lib)) =
          Prog.tryCatch (dispatch json turn.env ⟨token, req.op, [], [], req.old, req.new.getD []⟩ turn.now)
            (fun e => Prog.ofExcept (errorResponse json e.what)) ⟨store, s.disk⟩ := by
  obtain ⟨vault, -, hsound⟩ := (@Installation.nothing_sound _ (storeFormat lib) json hex paths).run hs hj
    (storeFormat_decodeUndoesEncode lib) events
  obtain ⟨-, contents, hcontents, htoken⟩ := hsound.running store token hrunning
  obtain ⟨raw, rfl⟩ := hsound.minted contents hcontents
  obtain rfl := Except.ok.inj ((hhex.clientToken_eq paths.token raw).symm.trans htoken)
  exact ⟨hcontents, htoken, ⟨raw, rfl⟩, fun op key value line turn hline => respond_request hj hline,
    fun req line turn hline => respond_object hj hline⟩

/-- When no call fails, the daemon starts exactly if none runs, the token was written
and the passphrase that is typed is that of the vault, the one given to init or last set. -/
theorem daemon_starts_iff (hs : lib.sodium.Ideal) (hhex : WritesHex hex) (hj : json.ParseUndoesDump)
    (events : List (InstallationEvent lib.sodium)) :
    let s := runInstallation json hex paths events (.nothing : Installation (storeFormat lib))
    ∃ vault, EvolvesAll json events none vault ∧ ∀ call : StartCall lib.sodium, call.Faultless →
      ((runDaemon json paths call s).1 = .ok () ↔ s.daemon = none ∧ s.token ≠ none ∧ ∃ passphrase v store,
        (readPassphrase call.stdin (text "Passphrase: ") call.console).1 = .ok passphrase ∧ vault = some v ∧
        OnFile json paths.store store s.disk v ∧ DerivesSame store passphrase v.passphrase) := by
  obtain ⟨vault, hevolves, hsound⟩ := (@Installation.nothing_sound _ (storeFormat lib) json hex paths).run hs hj
    (storeFormat_decodeUndoesEncode lib) events
  exact ⟨vault, hevolves, fun call hcall => hsound.starts_iff hs hhex hcall⟩

end

def hexDigit (n : UInt8) : UInt8 := if n < 10 then 48 + n else 87 + n

def lowerHex (raw : Bytes) : Bytes := raw.flatMap fun b : UInt8 => [hexDigit (b >>> 4), hexDigit (b &&& 15)]

theorem lowerHex_writesHex : WritesHex lowerHex where
  length raw := by
    rw [lowerHex, List.length_flatMap]
    simp [Nat.mul_comm]
  digits raw b hb := by
    have hdigit : ∀ k : Fin 256, IsHexDigit (hexDigit (UInt8.ofNat k >>> 4)) ∧
        IsHexDigit (hexDigit (UInt8.ofNat k &&& 15)) := by decide +kernel
    obtain ⟨c, -, hb⟩ := List.mem_flatMap.mp hb
    have hc := hdigit ⟨c.toNat, c.toNat_lt⟩
    rw [UInt8.ofNat_toNat] at hc
    rcases List.mem_pair.mp hb with rfl | rfl
    · exact hc.1
    · exact hc.2

def samplePaths : Paths := ⟨text "s", text "token", text "sock"⟩

/-- `echo p | secretov init`. -/
def sampleInit : InitCall taggedBoxes.sodium where
  stdin := ⟨false, false, false⟩
  console := { sampleConsole with reads := (text "p\n").map .byte }
  mkdirFails := none
  env := sampleEnv 1
  now := 7
  raw := ⟨List.replicate 32 171, rfl⟩
  tokenFails := none

/-- `echo p | secretov daemon`, when the key is old enough to be rotated. -/
def sampleStartCall : StartCall taggedBoxes.sodium where
  stdin := ⟨false, false, false⟩
  console := { sampleConsole with reads := (text "p\n").map .byte }
  limitFails := none
  opening := sampleEnv 2
  now := 2592008
  rotating := sampleEnv 3
  tokenFails := none
  listenFails := none

theorem clients_are_let_in_sample : ∃ store token, (runInstallation sampleJson lowerHex samplePaths
    [.init sampleInit, .start sampleStartCall] (.nothing : Installation (storeFormat taggedBoxes))).daemon =
      some (store, token) ∧ clientToken (text "token") (.ok token) = .ok token := by
  have hsome : (runInstallation sampleJson lowerHex samplePaths [.init sampleInit, .start sampleStartCall]
      (.nothing : Installation (storeFormat taggedBoxes))).daemon.isSome = true := by decide +kernel
  obtain ⟨⟨store, token⟩, hrunning⟩ := Option.isSome_iff_exists.mp hsome
  obtain ⟨-, htoken, -⟩ := clients_are_let_in taggedBoxes_ideal lowerHex_writesHex (tableJson_parseUndoesDump _)
    _ hrunning
  exact ⟨store, token, hrunning, htoken⟩

theorem daemon_starts_iff_sample : ∃ v, EvolvesAll sampleJson [.init sampleInit] none (some v) ∧
    ∃ store, OnFile sampleJson (text "s") store
    (runInstallation sampleJson lowerHex samplePaths [.init sampleInit]
      (.nothing : Installation (storeFormat taggedBoxes))).disk v ∧
      DerivesSame store (text "p") v.passphrase := by
  have hstarts : (runDaemon sampleJson samplePaths sampleStartCall
      (runInstallation sampleJson lowerHex samplePaths
      [.init sampleInit] (.nothing : Installation (storeFormat taggedBoxes)))).1.isOk = true := by decide +kernel
  have hread : (readPassphrase sampleStartCall.stdin (text "Passphrase: ") sampleStartCall.console).1 =
      .ok (text "p") := by
    decide +kernel
  obtain ⟨vault, hevolves, hiff⟩ := @daemon_starts_iff sampleJson lowerHex samplePaths _ taggedBoxes_ideal
    lowerHex_writesHex (tableJson_parseUndoesDump _) [.init sampleInit]
  obtain ⟨_, hok⟩ := Prog.except_exists_of_isOk hstarts
  obtain ⟨-, -, passphrase, v, store, hpassphrase, rfl, hfile, hsame⟩ :=
    (hiff sampleStartCall ⟨rfl, fun _ => rfl, fun _ => rfl, rfl, rfl⟩).mp hok
  obtain rfl := Except.ok.inj (hpassphrase.symm.trans hread)
  exact ⟨v, hevolves, store, hfile, hsame⟩

end Secretov
