import Secretov.Commands
import Secretov.SecretLine
import Secretov.StoreRefinement

/-! `secretov rotate` and `secretov passwd` (client.cpp): passphrases that are read, one
request of the daemon, and the passphrase in force afterwards. -/

namespace Secretov

/-- What `cmd_rotate` and `cmd_passwd` ask of the daemon. -/
inductive PassRequest where
  | rotate (old : Bytes)
  | passwd (old new : Bytes)
deriving DecidableEq

namespace PassRequest

def op : PassRequest → Bytes
  | rotate _ => text "rotate"
  | passwd _ _ => text "passwd"

def old : PassRequest → Bytes
  | rotate old => old
  | passwd old _ => old

def new : PassRequest → Option Bytes
  | rotate _ => none
  | passwd _ new => some new

/-- The request object, with the token that `serialize` adds. -/
def object (token : Bytes) (req : PassRequest) : Json :=
  .object ((match req.new with
      | some new => [(text "new", .string new)]
      | none => []) ++
    [(text "old", .string req.old), (text "op", .string req.op), (text "token", .string token)])

def storeOp (now : UInt64) : PassRequest → StoreOp
  | rotate old => .rotate old now
  | passwd old new => .changePassphrase old new now

end PassRequest

/-- `serialize` of any request object. -/
def serializeObject (json : Nlohmann) (full : Json) : Except Error Bytes := do
  let requestLine ← json.dump full
  if requestLine.length > kMaxRequestBytes then
    throw (.runtimeError (text "value too large: the request is " ++ decimal requestLine.length ++
      text " bytes, the daemon's limit is " ++ decimal kMaxRequestBytes))
  return requestLine

variable {S : Sodium} {F : Format S}

section

variable (c : Channel)

/-- `request_raw`. -/
def Channel.requestRaw (req : PassRequest) : Prog ClientError (Session F) Json := fun s =>
  let asked : Prog ClientError (World F) Json := match s.fates 0 with
    | .notRunning => Prog.throw (notRunning c.socketPath)
    | .servedByOther daemonUid => Prog.throw (servedByOther c.socketPath daemonUid)
    | .connected delivery => match serializeObject c.json (req.object c.token) with
      | .error e => Prog.throw (.error e)
      | .ok requestLine => c.deliver req.op requestLine delivery
  let r := asked s.world
  (r.1, ⟨r.2, fun n => s.fates (n + 1)⟩)

/-- A process with its standard input, and the daemon it talks to. -/
structure PassState (F : Format S) where
  console : Console
  session : Session F

abbrev PassM (F : Format S) (α : Type) := Prog CommandError (PassState F) α

def onConsole {α : Type} (m : ConsoleM α) : PassM F α := fun s =>
  ((m s.console).1.mapError (.failed ∘ Error.what), { s with console := (m s.console).2 })

def onDaemon {α : Type} (m : Prog ClientError (Session F) α) : PassM F α := fun s =>
  ((m s.session).1.mapError .client, { s with session := (m s.session).2 })

def rstrip (s : Bytes) : Bytes := s.rdropWhile fun b => b = newline ∨ b = carriageReturn ∨ b = blank ∨ b = tab

/-- The constructor of `DaemonClient`, with what reading the token file gives. -/
def clientToken (tokenPath : Bytes) (contents : Except Error Bytes) : Except Error Bytes := do
  let token := rstrip (← contents)
  Prog.throwIf (token = []) (.runtimeError (text "token file '" ++ tokenPath ++ text "' is empty"))
  return token

variable (stdin : Stdin) (tokenPath : Bytes) (tokenFile : Except Error Bytes)

def sendPass (req : PassRequest) : PassM F Unit := do
  let token ← Prog.ofExcept ((clientToken tokenPath tokenFile).mapError (.failed ∘ Error.what))
  let _ ← onDaemon ({ c with token }.requestRaw req)
  return ()

def cmdRotate : PassM F Bytes := do
  let pass ← onConsole (readPassphrase stdin (text "Current passphrase: "))
  sendPass c tokenPath tokenFile (.rotate pass)
  return text "rotated encryption key\n"

def cmdPasswd : PassM F Bytes := do
  let oldPass ← onConsole (readPassphrase stdin (text "Current passphrase: "))
  let newPass ← onConsole (readNewPassphrase stdin (text "New passphrase: ") (text "Confirm new passphrase: "))
  sendPass c tokenPath tokenFile (.passwd oldPass newPass)
  return text "passphrase changed\n"

end

section

variable {c : Channel} {w w' : World F}

theorem dispatch_pass {json : Nlohmann} {env : Env S} {now : UInt64} {token : Bytes} (req : PassRequest)
    {reply : Bytes} (h : dispatch json env ⟨token, req.op, [], [], req.old, req.new.getD []⟩ now w =
    (.ok reply, w')) : (w' = w ∧ ∃ msg, errorResponse json msg = .ok reply) ∨
      ((req.storeOp now).run json env w = (.ok (), w') ∧ okResponse json = .ok reply) := by
  have hrotate : text "rotate" ≠ text "get" ∧ text "rotate" ≠ text "set" ∧ text "rotate" ≠ text "delete" ∧
    text "rotate" ≠ text "list" ∧ text "rotate" ≠ text "getprefix" := by decide
  have hpasswd : text "passwd" ≠ text "get" ∧ text "passwd" ≠ text "set" ∧ text "passwd" ≠ text "delete" ∧
    text "passwd" ≠ text "list" ∧ text "passwd" ≠ text "getprefix" ∧ text "passwd" ≠ text "rotate" := by decide
  cases req with
  | rotate old =>
    simp only [PassRequest.op, PassRequest.old] at h
    rw [dispatch, if_neg hrotate.1, if_neg hrotate.2.1, if_neg hrotate.2.2.1, if_neg hrotate.2.2.2.1,
      if_neg hrotate.2.2.2.2, if_pos rfl] at h
    split_ifs at h
    · obtain ⟨hreply, rfl⟩ := Prod.mk.inj h
      exact .inl ⟨rfl, _, hreply⟩
    · obtain ⟨_, t, hrun, h⟩ := Prog.bind_eq_ok.mp h
      obtain ⟨hreply, rfl⟩ := Prod.mk.inj h
      exact .inr ⟨hrun, hreply⟩
  | passwd old new =>
    simp only [PassRequest.op, PassRequest.old, PassRequest.new, Option.getD_some] at h
    rw [dispatch, if_neg hpasswd.1, if_neg hpasswd.2.1, if_neg hpasswd.2.2.1, if_neg hpasswd.2.2.2.1,
      if_neg hpasswd.2.2.2.2.1, if_neg hpasswd.2.2.2.2.2, if_pos rfl] at h
    split_ifs at h
    · obtain ⟨hreply, rfl⟩ := Prod.mk.inj h
      exact .inl ⟨rfl, _, hreply⟩
    · obtain ⟨_, t, hrun, h⟩ := Prog.bind_eq_ok.mp h
      obtain ⟨hreply, rfl⟩ := Prod.mk.inj h
      exact .inr ⟨hrun, hreply⟩

theorem dump_of_serializeObject {json : Nlohmann} {full : Json} {line : Bytes}
    (h : serializeObject json full = .ok line) : json.dump full = .ok line := by
  obtain ⟨requestLine, hdump, h⟩ := Prog.except_bind_eq_ok.mp h
  split_ifs at h with hlong
  · cases h
  · rw [hdump, ← Except.ok.inj h]

theorem parseRequest_pass {json : Nlohmann} (hparse : json.ParseUndoesDump) {token line : Bytes}
    {req : PassRequest} (h : serializeObject json (req.object token) = .ok line) :
    parseRequest json line = .ok (some ⟨token, req.op, [], [], req.old, req.new.getD []⟩) := by
  have hline := hparse _ _ (dump_of_serializeObject h)
  cases req with
  | rotate old =>
    simp only [parseRequest, hline]
    rfl
  | passwd old new =>
    simp only [parseRequest, hline]
    rfl

theorem respond_object {json : Nlohmann} (hparse : json.ParseUndoesDump) {token line : Bytes} {req : PassRequest}
    {turn : Turn S} (h : serializeObject json (req.object token) = .ok line) :
    respond json token turn line w =
      Prog.tryCatch (dispatch json turn.env ⟨token, req.op, [], [], req.old, req.new.getD []⟩ turn.now)
        (fun e => Prog.ofExcept (errorResponse json e.what)) w := by
  have hmatches : tokenMatches token token = true := tokenMatches_iff.mpr rfl
  rw [respond, parseRequest_pass hparse h]
  simp only [Prog.bind_apply, Prog.ofExcept_apply, hmatches, Bool.not_true, Bool.false_eq_true, if_false]

section

variable (hparse : c.json.ParseUndoesDump) (hok : ∃ r, okResponse c.json = .ok r)
include hparse hok

theorem respond_pass {turn : Turn S} {line : Bytes} {req : PassRequest} {response : Except Error Bytes}
    (hline : serializeObject c.json (req.object c.token) = .ok line)
    (hrespond : respond c.json c.expectedToken turn line w = (response, w')) :
    ((req.storeOp turn.now).run c.json turn.env w = (.ok (), w') ∧ response = okResponse c.json) ∨
      (w' = w ∧ ∀ reply, response = .ok reply → ∃ msg, errorResponse c.json msg = .ok reply) := by
  have hread : respond c.json c.expectedToken turn line w =
      (if !tokenMatches c.expectedToken c.token then Prog.ofExcept (errorResponse c.json kErrInvalidToken)
        else Prog.tryCatch (dispatch c.json turn.env ⟨c.token, req.op, [], [], req.old, req.new.getD []⟩ turn.now)
          fun e => Prog.ofExcept (errorResponse c.json e.what)) w := by
    rw [respond, parseRequest_pass hparse hline]
    rfl
  rw [hread] at hrespond
  split_ifs at hrespond
  · obtain ⟨rfl, rfl⟩ := Prod.mk.inj hrespond
    exact .inr ⟨rfl, fun reply hreply => ⟨_, hreply⟩⟩
  · unfold Prog.tryCatch at hrespond
    rcases hd : dispatch c.json turn.env ⟨c.token, req.op, [], [], req.old, req.new.getD []⟩ turn.now w with
      ⟨e | reply, t⟩
    · rw [hd] at hrespond
      obtain rfl := dispatch_error hok hd
      obtain ⟨rfl, rfl⟩ := Prod.mk.inj hrespond
      exact .inr ⟨rfl, fun reply hreply => ⟨_, hreply⟩⟩
    · rw [hd] at hrespond
      obtain ⟨rfl, rfl⟩ := Prod.mk.inj hrespond
      rcases dispatch_pass req hd with ⟨rfl, hmsg⟩ | ⟨hrun, hreply⟩
      · refine .inr ⟨rfl, fun reply' hreply => ?_⟩
        obtain rfl := Except.ok.inj hreply
        exact hmsg
      · exact .inl ⟨hrun, hreply.symm⟩

/-- A request that is acknowledged was carried out. One that fails was not, unless its
error says that it may have been. -/
theorem requestRaw_outcome (req : PassRequest) (s : Session F) :
    ((∃ reply, (c.requestRaw req s).1 = .ok reply) → ∃ (env : Env S) (now : UInt64),
      (req.storeOp now).run c.json env s.world = (.ok (), (c.requestRaw req s).2.world)) ∧
    ∀ e, (c.requestRaw req s).1 = .error e → (c.requestRaw req s).2.world = s.world ∨
      e.maybeApplied = true ∧ ∃ (env : Env S) (now : UInt64),
        (req.storeOp now).run c.json env s.world = (.ok (), (c.requestRaw req s).2.world) := by
  unfold Channel.requestRaw
  cases hfate : s.fates 0 with
  | notRunning | servedByOther daemonUid => exact ⟨by rintro ⟨reply, ⟨⟩⟩, fun e _ => .inl rfl⟩
  | connected delivery =>
    cases hline : serializeObject c.json (req.object c.token) with
    | error e => exact ⟨by rintro ⟨reply, ⟨⟩⟩, fun e _ => .inl rfl⟩
    | ok line =>
      match delivery with
      | .sendFails timedOut | .noReply timedOut none => exact ⟨by rintro ⟨reply, ⟨⟩⟩, fun e _ => .inl rfl⟩
      | .noReply timedOut (some turn) =>
        refine ⟨by rintro ⟨reply, ⟨⟩⟩, fun e he => ?_⟩
        obtain rfl := Except.error.inj he
        rcases hrespond : respond c.json c.expectedToken turn line s.world with ⟨response, w'⟩
        simp only [Channel.deliver, hrespond]
        rcases respond_pass hparse hok hline hrespond with ⟨hrun, -⟩ | ⟨rfl, -⟩
        · exact .inr ⟨rfl, turn.env, turn.now, hrun⟩
        · exact .inl rfl
      | .replies turn =>
        rcases hrespond : respond c.json c.expectedToken turn line s.world with ⟨response, w'⟩
        have hcases := respond_pass hparse hok hline hrespond
        simp only [Channel.deliver, hrespond]
        cases response with
        | error e =>
          refine ⟨by rintro ⟨reply, ⟨⟩⟩, fun e he => ?_⟩
          obtain rfl := Except.error.inj he
          rcases hcases with ⟨hrun, -⟩ | ⟨rfl, -⟩
          · exact .inr ⟨rfl, turn.env, turn.now, hrun⟩
          · exact .inl rfl
        | ok reply =>
          dsimp only
          split_ifs with hlong
          · refine ⟨by rintro ⟨reply, ⟨⟩⟩, fun e he => ?_⟩
            obtain rfl := Except.error.inj he
            rcases hcases with ⟨hrun, -⟩ | ⟨rfl, -⟩
            · exact .inr ⟨rfl, turn.env, turn.now, hrun⟩
            · exact .inl rfl
          · rcases hcases with ⟨hrun, hreply⟩ | ⟨rfl, hrefused⟩
            · have hraw := requestRaw_okResponse hparse hreply.symm
              rw [hraw]
              exact ⟨fun _ => ⟨turn.env, turn.now, hrun⟩, fun e he => by cases he⟩
            · obtain ⟨msg, hmsg⟩ := hrefused reply rfl
              have hraw := requestRaw_errorResponse hparse hmsg
              rw [hraw]
              exact ⟨by rintro ⟨reply, ⟨⟩⟩, fun e _ => .inl rfl⟩

end

end

/-! Commands one after another. -/

inductive PassCommand where
  | rotate
  | passwd
deriving DecidableEq

/-- A command with what it finds around it. -/
structure PassInvocation (S : Sodium) where
  command : PassCommand
  stdin : Stdin
  console : Console
  tokenPath : Bytes
  tokenFile : Except Error Bytes
  fates : Nat → Fate S

/-- The passphrases that it reads, as it will send them. -/
def PassInvocation.request (inv : PassInvocation S) : ConsoleM PassRequest :=
  match inv.command with
  | .rotate => do
    let pass ← readPassphrase inv.stdin (text "Current passphrase: ")
    return .rotate pass
  | .passwd => do
    let oldPass ← readPassphrase inv.stdin (text "Current passphrase: ")
    let newPass ← readNewPassphrase inv.stdin (text "New passphrase: ") (text "Confirm new passphrase: ")
    return .passwd oldPass newPass

def PassInvocation.run (c : Channel) (inv : PassInvocation S) (w : World F) :
    Except CommandError Bytes × World F :=
  let s : PassState F := ⟨inv.console, ⟨w, inv.fates⟩⟩
  let r := match inv.command with
    | .rotate => cmdRotate c inv.stdin inv.tokenPath inv.tokenFile s
    | .passwd => cmdPasswd c inv.stdin inv.tokenPath inv.tokenFile s
  (r.1, r.2.session.world)

def runPassCommands (c : Channel) : List (PassInvocation S) → World F → List (Except CommandError Bytes) × World F
  | [], w => ([], w)
  | inv :: more, w =>
    let r := inv.run c w
    let rest := runPassCommands c more r.2
    (r.1 :: rest.1, rest.2)

/-- Both passphrases derive one key. -/
def SameKey (S : Sodium) (pass pass' : Bytes) : Prop :=
  ∃ salt opslimit memlimit, S.pwhash pass salt opslimit memlimit = S.pwhash pass' salt opslimit memlimit

/-- What a command makes of the vault, by what it says of itself. -/
inductive PassExplains (inv : PassInvocation S) (vault : Vault) : Except CommandError Bytes → Vault → Prop
  | failed (e : CommandError) : PassExplains inv vault (.error e) vault
  | done {req : PassRequest} {out : Bytes} (hread : (inv.request inv.console).1 = .ok req)
      (hold : SameKey S req.old vault.passphrase) :
      PassExplains inv vault (.ok out) (vault.after (req.storeOp 0))
  | maybeDone {req : PassRequest} {e : CommandError} (hread : (inv.request inv.console).1 = .ok req)
      (hold : SameKey S req.old vault.passphrase) (happlied : e.maybeApplied = true) :
      PassExplains inv vault (.error e) (vault.after (req.storeOp 0))

inductive PassExplainsAll : List (PassInvocation S) → Vault → List (Except CommandError Bytes) → Vault → Prop
  | nil (vault : Vault) : PassExplainsAll [] vault [] vault
  | cons {inv : PassInvocation S} {more : List (PassInvocation S)} {vault next last : Vault}
      {result : Except CommandError Bytes} {results : List (Except CommandError Bytes)}
      (hfirst : PassExplains inv vault result next) (hrest : PassExplainsAll more next results last) :
      PassExplainsAll (inv :: more) vault (result :: results) last

theorem after_passOp (vault : Vault) (req : PassRequest) (now now' : UInt64) :
    vault.after (req.storeOp now) = vault.after (req.storeOp now') := by
  cases req <;> rfl

theorem sendPass_cases (tokenPath : Bytes) (tokenFile : Except Error Bytes)
    (req : PassRequest) (s : PassState F) : (∃ e, sendPass c tokenPath tokenFile req s = (.error e, s)) ∨ ∃ token,
      let asked := { c with token }.requestRaw req s.session
      (∃ reply, asked.1 = .ok reply ∧ sendPass c tokenPath tokenFile req s =
        (.ok (), { s with session := asked.2 })) ∨ ∃ e, asked.1 = .error e ∧
          sendPass c tokenPath tokenFile req s = (.error (.client e), { s with session := asked.2 }) := by
  simp only [sendPass, Prog.bind_apply, Prog.ofExcept_apply, onDaemon]
  cases clientToken tokenPath tokenFile with
  | error e => exact .inl ⟨_, rfl⟩
  | ok token =>
    refine .inr ⟨token, ?_⟩
    simp only [Except.mapError]
    cases hasked : (Channel.requestRaw { c with token } req s.session).1 with
    | error e => exact .inr ⟨e, rfl, rfl⟩
    | ok reply => exact .inl ⟨reply, rfl, rfl⟩

/-- A command is its reading of passphrases, and then its request. -/
theorem PassInvocation.run_cases (inv : PassInvocation S) (w : World F) :
    (∃ e, inv.run c w = (.error e, w)) ∨ ∃ req, (inv.request inv.console).1 = .ok req ∧ ∃ token,
      let asked := { c with token }.requestRaw req ⟨w, inv.fates⟩
      (∃ reply out, asked.1 = .ok reply ∧ inv.run c w = (.ok out, asked.2.world)) ∨
        ∃ e, asked.1 = .error e ∧ inv.run c w = (.error (.client e), asked.2.world) := by
  have hsent (tokenPath : Bytes) (tokenFile : Except Error Bytes) (req : PassRequest) (console : Console) :=
    sendPass_cases (c := c) tokenPath tokenFile req ⟨console, ⟨w, inv.fates⟩⟩
  obtain ⟨command, stdin, console, tokenPath, tokenFile, fates⟩ := inv
  cases command with
  | rotate =>
    simp only [PassInvocation.run, PassInvocation.request, cmdRotate, onConsole, Prog.bind_apply]
    rcases hpass : readPassphrase stdin (text "Current passphrase: ") console with ⟨e | pass, t⟩
    · exact .inl ⟨_, rfl⟩
    simp only [Except.mapError, Prog.pure_apply]
    rcases hsent tokenPath tokenFile (.rotate pass)
      t with ⟨e, he⟩ | ⟨token, ⟨reply, hreply, hrun⟩ | ⟨e, he, hrun⟩⟩
    · exact .inl ⟨e, by rw [he]⟩
    · exact .inr ⟨_, rfl, token, .inl ⟨reply, _, hreply, by rw [hrun]⟩⟩
    · exact .inr ⟨_, rfl, token, .inr ⟨e, he, by rw [hrun]⟩⟩
  | passwd =>
    simp only [PassInvocation.run, PassInvocation.request, cmdPasswd, onConsole, Prog.bind_apply]
    rcases hold : readPassphrase stdin (text "Current passphrase: ") console with ⟨e | oldPass, t⟩
    · exact .inl ⟨_, rfl⟩
    simp only [Except.mapError, Prog.pure_apply]
    rcases hnew : readNewPassphrase stdin (text "New passphrase: ") (text "Confirm new passphrase: ") t with
      ⟨e | newPass, u⟩
    · exact .inl ⟨_, rfl⟩
    simp only
    rcases hsent tokenPath tokenFile (.passwd oldPass newPass) u with
      ⟨e, he⟩ | ⟨token, ⟨reply, hreply, hrun⟩ | ⟨e, he, hrun⟩⟩
    · exact .inl ⟨e, by rw [he]⟩
    · exact .inr ⟨_, rfl, token, .inl ⟨reply, _, hreply, by rw [hrun]⟩⟩
    · exact .inr ⟨_, rfl, token, .inr ⟨e, he, by rw [hrun]⟩⟩

section

variable {lib : Libsodium}

theorem PassInvocation.explains (hs : lib.sodium.Ideal) (hparse : c.json.ParseUndoesDump)
    (hok : ∃ r, okResponse c.json = .ok r) (inv : PassInvocation lib.sodium) {w : World (storeFormat lib)}
    {vault : Vault} (ht : Tracks c.json w vault) :
    ∃ next, PassExplains inv vault (inv.run c w).1 next ∧ Tracks c.json (inv.run c w).2 next := by
  have hdone {req : PassRequest} {env : Env lib.sodium} {now : UInt64} {w' : World (storeFormat lib)}
      (hrun : (req.storeOp now).run c.json env w = (.ok (), w')) :
      Tracks c.json w' (vault.after (req.storeOp 0)) ∧ SameKey lib.sodium req.old vault.passphrase := by
    refine ⟨after_passOp vault req now 0 ▸ ht.ok hs hparse (storeFormat_decodeUndoesEncode lib) hrun, ?_⟩
    exact ⟨_, _, _, StoreOp.passphrase_of_ok hs ht.unlocks hrun (by cases req <;> rfl)⟩
  rcases inv.run_cases (c := c) w with ⟨e, hrun⟩ | ⟨req, hread, token, ⟨reply, out, hreply, hrun⟩ | ⟨e, he, hrun⟩⟩
  · rw [hrun]
    exact ⟨vault, .failed e, ht⟩
  · rw [hrun]
    obtain ⟨hcarried, -⟩ := @requestRaw_outcome _ _ { c with token } hparse hok req ⟨w, inv.fates⟩
    obtain ⟨env, now, hop⟩ := hcarried ⟨reply, hreply⟩
    obtain ⟨htracks, hold⟩ := hdone hop
    exact ⟨_, .done hread hold, htracks⟩
  · rw [hrun]
    obtain ⟨-, hfailed⟩ := @requestRaw_outcome _ _ { c with token } hparse hok req ⟨w, inv.fates⟩
    rcases hfailed e he with hsame | ⟨happlied, env, now, hop⟩
    · exact ⟨vault, .failed _, hsame ▸ ht⟩
    · obtain ⟨htracks, hold⟩ := hdone hop
      exact ⟨_, .maybeDone hread hold happlied, htracks⟩

theorem runPassCommands_explained (hs : lib.sodium.Ideal) (hparse : c.json.ParseUndoesDump)
    (hok : ∃ r, okResponse c.json = .ok r) (commands : List (PassInvocation lib.sodium))
    {w : World (storeFormat lib)} {vault : Vault} (ht : Tracks c.json w vault) :
    ∃ last, PassExplainsAll commands vault (runPassCommands c commands w).1 last ∧
      Tracks c.json (runPassCommands c commands w).2 last := by
  induction commands generalizing w vault with
  | nil => exact ⟨vault, .nil vault, ht⟩
  | cons inv more ih =>
    obtain ⟨next, hfirst, hnext⟩ := inv.explains hs hparse hok ht
    obtain ⟨last, hrest, hlast⟩ := ih hnext
    exact ⟨last, .cons hfirst hrest, hlast⟩

theorem PassExplainsAll.map_eq {commands : List (PassInvocation S)} {vault last : Vault}
    {results : List (Except CommandError Bytes)} (h : PassExplainsAll commands vault results last) :
    last.map = vault.map := by
  have hafter (vault : Vault) (req : PassRequest) : (vault.after (req.storeOp 0)).map = vault.map := by
    cases req <;> rfl
  induction h with
  | nil vault => rfl
  | cons hfirst hrest ih =>
    rw [ih]
    cases hfirst with
    | failed e => rfl
    | done | maybeDone => exact hafter _ _

/-- Any rotations and passphrase changes, whatever becomes of their requests: the
secrets stay, and the passphrase that opens the file afterwards is the one that the
answers tell. -/
theorem passphrase_commands_explained (hs : lib.sodium.Ideal) (hparse : c.json.ParseUndoesDump)
    (hok : ∃ r, okResponse c.json = .ok r) {w : World (storeFormat lib)} {vault : Vault}
    (hstart : Started c.json w vault) (commands : List (PassInvocation lib.sodium)) :
    let after := (runPassCommands c commands w).2
    ∃ last, PassExplainsAll commands vault (runPassCommands c commands w).1 last ∧ Answers after.store vault.map ∧
      ∀ env : Env lib.sodium, env.Faultless →
        Store.open c.json env after.store.path last.passphrase after.disk = (.ok after.store, after.disk) := by
  obtain ⟨last, hexplained, ht⟩ := runPassCommands_explained hs hparse hok commands (hstart.tracks hs hparse)
  refine ⟨last, hexplained, hexplained.map_eq ▸ Store.answers ht.map, fun env henv => ?_⟩
  exact ht.unlocks.open_eq fun call _ => henv call

def passTable : List (Bytes × Json) :=
  [(braced "\"new\":\"q\",\"old\":\"p\",\"op\":\"passwd\",\"token\":\"t\"",
      (PassRequest.passwd (text "p") (text "q")).object (text "t")),
    (braced "\"ok\":true", .object [(text "ok", .boolean true)]),
    (braced "\"error\":\"wrong passphrase\",\"ok\":false",
      .object [(text "error", .string (text "wrong passphrase")), (text "ok", .boolean false)]),
    (text "\x7b\x7d", .object [])]

def passChannel : Channel := ⟨tableOf passTable, text "sock", [], text "t"⟩

/-- `printf 'p\nq\n' | secretov passwd`, twice. The reply to the first one is lost. -/
def samplePassCommands : List (PassInvocation taggedBoxes.sodium) :=
  let console : Console := { sampleConsole with reads := (text "p\nq\n").map .byte }
  let inv (fate : Fate taggedBoxes.sodium) : PassInvocation taggedBoxes.sodium :=
    ⟨.passwd, ⟨false, false, false⟩, console, text "token", .ok (text "t\n"), fun _ => fate⟩
  [inv (.connected (.noReply true (some sampleTurn))), inv (.connected (.replies sampleTurn))]

theorem passphrase_commands_explained_sample :
    (runPassCommands passChannel samplePassCommands sampleStart).1.map (fun result => result.isOk) =
    [false, false] ∧
    let after := (runPassCommands passChannel samplePassCommands sampleStart).2
    ∃ last, PassExplainsAll samplePassCommands ⟨fun _ => none, text "p"⟩
        (runPassCommands passChannel samplePassCommands sampleStart).1 last ∧
        Answers after.store (fun _ => none) ∧
      ∀ env : Env taggedBoxes.sodium, env.Faultless →
        Store.open passChannel.json env after.store.path last.passphrase after.disk =
          (.ok after.store, after.disk) := by
  have hok : (okResponse passChannel.json).isOk = true := by decide
  have hcreate : Store.create passChannel.json (sampleEnv 1) (text "s") (text "p") 7 none =
      (.ok sampleStart.store, sampleStart.disk) := rfl
  exact ⟨by decide +kernel, passphrase_commands_explained taggedBoxes_ideal (tableOf_parseUndoesDump _)
    (Prog.except_exists_of_isOk hok) (Started.created hcreate) samplePassCommands⟩

end

end Secretov
