import Secretov.Client
import Secretov.DaemonReplies

/-! Requests of any operation (client.cpp), and what becomes of each on its way to
the daemon and back. -/

namespace Secretov

/-- `make_request`, with the token that `serialize` adds. -/
def requestObject (token op key : Bytes) (value : Option Bytes) : Json :=
  .object ((if key = [] then [] else [(text "key", .string key)]) ++
    [(text "op", .string op), (text "token", .string token)] ++
    match value with
    | some value => [(text "value", .string value)]
    | none => [])

variable (json : Nlohmann)

def serializeRequest (token op key : Bytes) (value : Option Bytes) : Except Error Bytes := do
  let requestLine ← json.dump (requestObject token op key value)
  if requestLine.length > kMaxRequestBytes then
    throw (.runtimeError (text "value too large: the request is " ++ decimal requestLine.length ++
      text " bytes, the daemon's limit is " ++ decimal kMaxRequestBytes))
  return requestLine

theorem serialize_eq (token : Bytes) (op : Op) :
    serialize json token op = serializeRequest json token op.name op.key op.value := rfl

variable {json}

theorem dump_of_serializeRequest {token op key line : Bytes} {value : Option Bytes}
    (h : serializeRequest json token op key value = .ok line) :
    json.dump (requestObject token op key value) = .ok line := by
  obtain ⟨requestLine, hdump, h⟩ := Prog.except_bind_eq_ok.mp h
  split_ifs at h with hlong
  · cases h
  · rw [hdump, ← Except.ok.inj h]

theorem requestFields_requestObject (token op key : Bytes) (value : Option Bytes) :
    requestFields (requestObject token op key value) = .ok ⟨token, op, key, value.getD [], [], []⟩ := by
  by_cases hkey : key = []
  · subst hkey
    cases value with
    | none | some value => rfl
  · cases value with
    | none | some value =>
      simp [requestFields, requestObject, hkey]
      rfl

theorem requestObject_contains (token op key : Bytes) (value : Option Bytes) :
    (requestObject token op key value).contains (text "token") = true ∧
      (requestObject token op key value).contains (text "op") = true := by
  by_cases hkey : key = []
  · subst hkey
    cases value with
    | none | some value => exact ⟨rfl, rfl⟩
  · cases value with
    | none | some value =>
      simp [requestObject, hkey]
      exact ⟨rfl, rfl⟩

theorem parseRequest_serializeRequest (hparse : json.ParseUndoesDump) {token op key line : Bytes}
    {value : Option Bytes} (h : serializeRequest json token op key value = .ok line) :
    parseRequest json line = .ok (some ⟨token, op, key, value.getD [], [], []⟩) := by
  have hline := hparse _ _ (dump_of_serializeRequest h)
  have hobject : (requestObject token op key value).isObject = true := rfl
  obtain ⟨htoken, hop⟩ := requestObject_contains token op key value
  simp only [parseRequest, hline, hobject, htoken, hop, requestFields_requestObject, Bool.not_true, Bool.or_self,
    Bool.false_eq_true, if_false]

/-- Who the client talks to, and with what. -/
structure Channel where
  json : Nlohmann
  socketPath : Bytes
  token : Bytes
  expectedToken : Bytes

variable {S : Sodium}

/-- What becomes of a request line. Where no reply comes back, the daemon has
handled it or has not. -/
inductive Delivery (S : Sodium) where
  | sendFails (timedOut : Bool)
  | noReply (timedOut : Bool) (handled : Option (Turn S))
  | replies (turn : Turn S)

/-- What a request finds at the socket. -/
inductive Fate (S : Sodium) where
  | notRunning
  | servedByOther (daemonUid : Nat)
  | connected (delivery : Delivery S)

/-- The daemon's store and what will become of the requests to come. -/
structure Session (F : Format S) where
  world : World F
  fates : Nat → Fate S

variable {F : Format S} (c : Channel)

namespace Channel

def deliver (op line : Bytes) : Delivery S → Prog ClientError (World F) Json
  | .sendFails timedOut, w => (.error (sendFailed op timedOut), w)
  | .noReply timedOut none, w => (.error (replyMissing op timedOut), w)
  | .noReply timedOut (some turn), w =>
    (.error (replyMissing op timedOut), (respond c.json c.expectedToken turn line w).2)
  | .replies turn, w =>
    match respond c.json c.expectedToken turn line w with
    | (.error _, w) => (.error (replyMissing op false), w)
    | (.ok reply, w) =>
      if reply.length > kMaxResponseBytes then (.error (replyMissing op false), w)
      else (requestRaw c.json reply, w)

def exchange (op key : Bytes) (value : Option Bytes) : Fate S → Prog ClientError (World F) Json
  | .notRunning => Prog.throw (notRunning c.socketPath)
  | .servedByOther daemonUid => Prog.throw (servedByOther c.socketPath daemonUid)
  | .connected delivery =>
    match serializeRequest c.json c.token op key value with
    | .error e => Prog.throw (.error e)
    | .ok requestLine => c.deliver op requestLine delivery

/-- `DaemonClient::request`. -/
def request (op key : Bytes) (value : Option Bytes) : Prog ClientError (Session F) Json := fun s =>
  let r := c.exchange op key value (s.fates 0) s.world
  (r.1, ⟨r.2, fun n => s.fates (n + 1)⟩)

/-- `local_request`. -/
def localRequest (op key : Bytes) (value : Option Bytes) : Prog LocalError (Session F) Json := fun s =>
  let r := c.request op key value s
  (Secretov.localRequest r.1, r.2)

end Channel

/-! What the daemon makes of a line with the right token. -/

variable {c} {w : World F} {turn : Turn S}

theorem respond_serialized (hparse : json.ParseUndoesDump) {expectedToken token op key line : Bytes}
    {value : Option Bytes} (h : serializeRequest json token op key value = .ok line) :
    respond json expectedToken turn line w =
      (if !tokenMatches expectedToken token then Prog.ofExcept (errorResponse json kErrInvalidToken)
        else Prog.tryCatch (dispatch json turn.env ⟨token, op, key, value.getD [], [], []⟩ turn.now)
          fun e => Prog.ofExcept (errorResponse json e.what)) w := by
  rw [respond, parseRequest_serializeRequest hparse h]
  rfl

theorem respond_request (hparse : json.ParseUndoesDump) {token op key line : Bytes} {value : Option Bytes}
    (h : serializeRequest json token op key value = .ok line) :
    respond json token turn line w =
      Prog.tryCatch (dispatch json turn.env ⟨token, op, key, value.getD [], [], []⟩ turn.now)
        (fun e => Prog.ofExcept (errorResponse json e.what)) w := by
  rw [respond_serialized hparse h, tokenMatches_iff.mpr rfl]
  rfl

end Secretov
