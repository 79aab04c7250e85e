import Secretov.Protocol

/-! The client's side of one request (client.cpp, backend.cpp): the line it sends
and what its caller is told. -/

namespace Secretov

def kMaxResponseBytes : Nat := 64 <<< 20

def kReplyTimeoutSeconds : Nat := 5

def kKdfReplyTimeoutSeconds : Nat := 60

inductive Stage where
  | notRunning
  | notSent
  | sent
deriving DecidableEq

structure DaemonUnreachable where
  what : Bytes
  stage : Stage
  timedOut : Bool
  timeoutSeconds : Nat
deriving DecidableEq

inductive ClientError where
  | unreachable (e : DaemonUnreachable)
  | error (e : Error)
deriving DecidableEq

inductive Op where
  | get (key : Bytes)
  | set (key value : Bytes)
  | delete (key : Bytes)
deriving DecidableEq

namespace Op

def name : Op → Bytes
  | get _ => text "get"
  | set _ _ => text "set"
  | delete _ => text "delete"

def key : Op → Bytes
  | get key => key
  | set key _ => key
  | delete key => key

def value : Op → Option Bytes
  | get _ => none
  | set _ value => some value
  | delete _ => none

end Op

/-- `make_request`, with the token that `serialize` adds. Members are in the order
of an nlohmann object. -/
def makeRequest (token : Bytes) (op : Op) : Json :=
  .object ((if op.key = [] then [] else [(text "key", .string op.key)]) ++
    [(text "op", .string op.name), (text "token", .string token)] ++
    match op.value with
    | some value => [(text "value", .string value)]
    | none => [])

def timeoutSeconds (op : Bytes) : Nat :=
  if op = text "rotate" ∨ op = text "passwd" then kKdfReplyTimeoutSeconds else kReplyTimeoutSeconds

variable (json : Nlohmann)

def serialize (token : Bytes) (op : Op) : Except Error Bytes := do
  let requestLine ← json.dump (makeRequest token op)
  if requestLine.length > kMaxRequestBytes then
    throw (.runtimeError (text "value too large: the request is " ++ decimal requestLine.length ++
      text " bytes, the daemon's limit is " ++ decimal kMaxRequestBytes))
  return requestLine

def noReply (op : Bytes) : Bytes :=
  text "no reply within " ++ decimal (timeoutSeconds op) ++ text " s"

def notRunning (socketPath : Bytes) : ClientError :=
  .unreachable ⟨text "daemon not running at " ++ socketPath ++ text " ?", .notRunning, false, 0⟩

def servedByOther (socketPath : Bytes) (daemonUid : Nat) : ClientError :=
  .error (.runtimeError (text "socket " ++ socketPath ++ text " is served by uid " ++ decimal daemonUid ++
    text ", not ours; refusing to send"))

def sendFailed (op : Bytes) (timedOut : Bool) : ClientError :=
  .unreachable ⟨if timedOut then text "daemon busy: " ++ noReply op ++ text " (another client may be holding it)"
    else text "failed to send request to daemon", .notSent, timedOut, timeoutSeconds op⟩

def replyMissing (op : Bytes) (timedOut : Bool) : ClientError :=
  let readOnly := op = text "get" ∨ op = text "list" ∨ op = text "getprefix"
  let why := if timedOut then text "daemon busy: request sent but " ++ noReply op
    else text "daemon closed the connection without a reply"
  .unreachable ⟨if readOnly then why else why ++ text "; it may still be applied (check with list/get)",
    .sent, timedOut, timeoutSeconds op⟩

def replyOk (resp : Json) : Except Error Bool :=
  match resp with
  | .object members => match members.lookup (text "ok") with
    | none => .ok false
    | some (.boolean ok) => .ok ok
    | some j => .error (.typeError (text "[json.exception.type_error.302] type must be boolean, but is " ++
        j.typeName))
  | j => .error (.typeError (text "[json.exception.type_error.306] cannot use value() with " ++ j.typeName))

/-- The end of `send` and `request_raw`: what a reply line comes to. -/
def requestRaw (line : Bytes) : Except ClientError Json :=
  match json.parse line with
  | .error _ => .error (.error (.runtimeError (text "malformed response from daemon")))
  | .ok resp => match replyOk resp with
    | .error e => .error (.error e)
    | .ok true => .ok resp
    | .ok false => match resp.valueString (text "error") (text "request failed") with
      | .error e => .error (.error e)
      | .ok msg => .error (.error (.runtimeError msg))

inductive Kind where
  | notFound
  | noCredentials
  | unreachable
deriving DecidableEq

structure BackendError where
  kind : Kind
  what : Bytes
  maybeApplied : Bool
  timedOut : Bool
  timeoutSeconds : Nat
  notRunning : Bool
deriving DecidableEq

inductive LocalError where
  | backend (e : BackendError)
  | error (e : Error)
deriving DecidableEq

def LocalError.what : LocalError → Bytes
  | backend e => e.what
  | error e => e.what

def localRequest : Except ClientError Json → Except LocalError Json
  | .ok resp => .ok resp
  | .error (.unreachable e) => .error (.backend
    { kind := .unreachable, what := e.what, maybeApplied := e.stage == .sent, timedOut := e.timedOut,
      timeoutSeconds := e.timeoutSeconds, notRunning := e.stage == .notRunning })
  | .error (.error (.runtimeError message)) =>
    if message = kErrNotFound then .error (.backend ⟨.notFound, message, false, false, 0, false⟩)
    else if message = kErrInvalidToken then .error (.backend ⟨.noCredentials, message, false, false, 0, false⟩)
    else .error (.error (.runtimeError message))
  | .error (.error e) => .error (.error e)

def LocalError.maybeApplied : LocalError → Bool
  | .backend e => e.maybeApplied
  | .error _ => false

end Secretov
