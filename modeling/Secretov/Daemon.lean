import Secretov.Protocol
import Secretov.Store
import Secretov.Transport

/-! The daemon (daemon.cpp): what it does with one request, with one connection
and with connections one after another. -/

namespace Secretov

variable {S : Sodium} {F : Format S} (json : Nlohmann)

def tokenMatches (expected got : Bytes) : Bool :=
  if expected.length ≠ got.length then false
  else (List.zipWith (· ^^^ ·) expected got).foldl (· ||| ·) 0 == 0

def dispatch (env : Env S) (req : Request) (now : UInt64) : StoreM F Bytes := do
  if req.op = text "get" then
    if req.key = [] then Prog.ofExcept (errorResponse json (text "missing key"))
    else match ← Prog.ofExcept ((← Prog.get).store.get req.key) with
      | none => Prog.ofExcept (errorResponse json kErrNotFound)
      | some value => Prog.ofExcept (okValue json value)
  else if req.op = text "set" then
    if req.key = [] then Prog.ofExcept (errorResponse json (text "missing key"))
    else
      Store.set json env req.key req.value
      Prog.ofExcept (okResponse json)
  else if req.op = text "delete" then
    if req.key = [] then Prog.ofExcept (errorResponse json (text "missing key"))
    else if ← Store.remove json env req.key then Prog.ofExcept (okResponse json)
    else Prog.ofExcept (errorResponse json kErrNotFound)
  else if req.op = text "list" then
    Prog.ofExcept (okKeys json (← Prog.get).store.list)
  else if req.op = text "getprefix" then
    if req.key = [] then Prog.ofExcept (errorResponse json (text "missing prefix"))
    else
      let values ← Prog.ofExcept ((← Prog.get).store.getPrefix req.key)
      Prog.ofExcept (okValues json values)
  else if req.op = text "rotate" then
    if req.oldPass = [] then Prog.ofExcept (errorResponse json (text "missing passphrase"))
    else
      Store.rotate json env req.oldPass now
      Prog.ofExcept (okResponse json)
  else if req.op = text "passwd" then
    if req.oldPass = [] ∨ req.newPass = [] then Prog.ofExcept (errorResponse json (text "missing passphrase"))
    else
      Store.changePassphrase json env req.oldPass req.newPass now
      Prog.ofExcept (okResponse json)
  else Prog.ofExcept (errorResponse json (text "unknown op: " ++ req.op))

/-- What one turn of the loop takes from outside: the clock, the randomness and
the failing calls of the store, and what the sends of the reply give. -/
structure Turn (S : Sodium) where
  now : UInt64
  env : Env S
  sends : List SendResult

/-- The reply to one line. A throw is one that leaves `serve_connection`. -/
def respond (expectedToken : Bytes) (turn : Turn S) (line : Bytes) : StoreM F Bytes := do
  match ← Prog.ofExcept (parseRequest json line) with
  | none => Prog.ofExcept (errorResponse json (text "malformed request"))
  | some req =>
    if !tokenMatches expectedToken req.token then Prog.ofExcept (errorResponse json kErrInvalidToken)
    else Prog.tryCatch (dispatch json turn.env req turn.now) fun e =>
      Prog.ofExcept (errorResponse json e.what)

def ignoresWrite (line : Bytes) : Bool :=
  match parseRequest json line with
  | .ok none => true
  | _ => false

structure Reply where
  line : Bytes
  wire : Bytes
  ok : Bool
deriving DecidableEq

inductive Ending where
  | closed
  | threw (e : Error)
deriving DecidableEq

structure Served where
  replies : List Reply
  ending : Ending
deriving DecidableEq

def replyWith (conn : Connection) (response : Bytes) (sends : List SendResult) : Reply × Connection :=
  let r := writeLine conn response sends
  (⟨response, r.wire, r.ok⟩, r.conn)

/-- The loop of `serve_connection`. Every turn takes a line off the stream, so
`fuel` beyond the length of the stream is never used up. -/
def serveLoop (expectedToken : Bytes) (turns : Nat → Turn S) :
    Nat → Nat → Connection → List ReadResult → World F → Served × World F
  | 0, _, _, _, w => (⟨[], .closed⟩, w)
  | fuel + 1, i, conn, reads, w =>
    match readLine kMaxRequestBytes conn reads with
    | (none, _, _) => (⟨[], .closed⟩, w)
    | (some line, conn, reads) =>
      match respond json expectedToken (turns i) line w with
      | (.error e, w) => (⟨[], .threw e⟩, w)
      | (.ok response, w) =>
        let (reply, conn) := replyWith conn response (turns i).sends
        if !reply.ok && !ignoresWrite json line then (⟨[reply], .closed⟩, w)
        else
          let (served, w) := serveLoop expectedToken turns fuel (i + 1) conn reads w
          ({ served with replies := reply :: served.replies }, w)

/-- An accepted connection: who is at the other end, what arrives, and the turns
of the loop. -/
structure Accepted (S : Sodium) where
  peerUid : Except Error Nat
  reads : List ReadResult
  turns : Nat → Turn S

def serveConnection (uid : Nat) (expectedToken : Bytes) (c : Accepted S) (w : World F) : Served × World F :=
  match c.peerUid with
  | .error e => (⟨[], .threw e⟩, w)
  | .ok peer =>
    if peer ≠ uid then
      match errorResponse json (text "permission denied: peer uid mismatch") with
      | .error e => (⟨[], .threw e⟩, w)
      | .ok response => (⟨[(replyWith .fresh response (c.turns 0).sends).1], .closed⟩, w)
    else serveLoop json expectedToken c.turns ((received c.reads).length + 1) 0 .fresh c.reads w

/-- The accept loop of `run_daemon`: connections are served one after another,
and an exception ends its connection only. -/
def serveAll (uid : Nat) (expectedToken : Bytes) : List (Accepted S) → World F → List Served × World F
  | [], w => ([], w)
  | c :: more, w =>
    let (served, w) := serveConnection json uid expectedToken c w
    let (rest, w) := serveAll uid expectedToken more w
    (served :: rest, w)

end Secretov
