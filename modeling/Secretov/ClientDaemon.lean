import Secretov.Client
import Secretov.Daemon
import Mathlib.Logic.Relation

/-! Many clients and one daemon. Each client makes one call over a connection of
its own. The daemon serves one connection at a time. A step is one system call
of one of them, or the work between two. -/

namespace Secretov

/-- Who takes part: the calls, and what they and the daemon are started with. -/
structure Setup (ι : Type) where
  json : Nlohmann
  socketPath : Bytes
  daemonUid : Nat
  expectedToken : Bytes
  uid : ι → Nat
  token : ι → Bytes
  op : ι → Op

inductive LinkState where
  | absent
  | queued
  | accepted
deriving DecidableEq

/-- One connection: all bytes sent each way, and those not yet read. -/
structure Link where
  state : LinkState
  sent : Bytes
  up : Bytes
  replied : Bytes
  down : Bytes

/-- A client in `send`. `started` and `finished` count the lines that the daemon
had taken on when the call began and when it ended. -/
inductive ClientPc where
  | idle
  | sending (started : Nat) (rest : Bytes)
  | receiving (started : Nat) (conn : Connection)
  | done (started finished : Nat) (told : Except LocalError Json)

inductive DaemonPc (ι : Type) where
  | waiting
  | serving (i : ι) (conn : Connection)
  | replying (i : ι) (conn : Connection) (rest : Bytes) (carryOn : Bool)

def DaemonPc.at {ι : Type} : DaemonPc ι → Option ι
  | waiting => none
  | serving i _ => some i
  | replying i _ _ _ => some i

variable {ι : Type} {S : Sodium}

structure Event (ι : Type) (F : Format S) where
  client : ι
  line : Bytes
  before : World F
  response : Except Error Bytes
  after : World F

structure System (ι : Type) (F : Format S) where
  pc : ι → ClientPc
  link : ι → Link
  daemon : DaemonPc ι
  world : World F
  log : List (Event ι F)

variable {F : Format S}

def System.start (w : World F) : System ι F where
  pc _ := .idle
  link _ := ⟨.absent, [], [], [], []⟩
  daemon := .waiting
  world := w
  log := []

def afterConnect (cfg : Setup ι) (i : ι) (now : Nat) : ClientPc :=
  if cfg.uid i ≠ cfg.daemonUid then
    .done now now (localRequest (.error (servedByOther cfg.socketPath cfg.daemonUid)))
  else match serialize cfg.json (cfg.token i) (cfg.op i) with
    | .error e => .done now now (localRequest (.error (.error e)))
    | .ok requestLine => .sending now (requestLine ++ [newline])

def afterSend (started : Nat) (rest : Bytes) : ClientPc :=
  if rest = [] then .receiving started .fresh else .sending started rest

def afterWrite (i : ι) (conn : Connection) (rest : Bytes) (carryOn : Bool) : DaemonPc ι :=
  if rest = [] then .serving i conn else .replying i conn rest carryOn

def afterRespond (i : ι) (conn : Connection) (response : Except Error Bytes) (carryOn : Bool) : DaemonPc ι :=
  match response with
  | .ok response => .replying i conn (response ++ [newline]) carryOn
  | .error _ => .waiting

variable [DecidableEq ι]

namespace System

def setClient (s : System ι F) (i : ι) (pc : ClientPc) (link : Link) : System ι F :=
  { s with pc := Function.update s.pc i pc, link := Function.update s.link i link }

def setDaemon (s : System ι F) (daemon : DaemonPc ι) (i : ι) (link : Link) : System ι F :=
  { s with daemon, link := Function.update s.link i link }

variable (s : System ι F) (i : ι) (pc : ClientPc) (daemon : DaemonPc ι) (link : Link)

@[simp] theorem setClient_pc : (s.setClient i pc link).pc i = pc := Function.update_self ..

@[simp] theorem setClient_link : (s.setClient i pc link).link i = link := Function.update_self ..

@[simp] theorem setDaemon_link : (s.setDaemon daemon i link).link i = link := Function.update_self ..

theorem setClient_pc_of_ne {j : ι} (h : j ≠ i) : (s.setClient i pc link).pc j = s.pc j :=
  Function.update_of_ne h ..

theorem setClient_link_of_ne {j : ι} (h : j ≠ i) : (s.setClient i pc link).link j = s.link j :=
  Function.update_of_ne h ..

theorem setDaemon_link_of_ne {j : ι} (h : j ≠ i) : (s.setDaemon daemon i link).link j = s.link j :=
  Function.update_of_ne h ..

end System

inductive ClientStep (cfg : Setup ι) (s : System ι F) (i : ι) : System ι F → Prop
  | notRunning (h : s.pc i = .idle) :
      ClientStep cfg s i (s.setClient i
        (.done s.log.length s.log.length (localRequest (.error (notRunning cfg.socketPath)))) (s.link i))
  | connect (h : s.pc i = .idle) :
      ClientStep cfg s i (s.setClient i (afterConnect cfg i s.log.length) { s.link i with state := .queued })
  | connectThrows (h : s.pc i = .idle) (what : Bytes) :
      ClientStep cfg s i (s.setClient i
        (.done s.log.length s.log.length (localRequest (.error (.error (.runtimeError what)))))
        { s.link i with state := .queued })
  | send {started : Nat} {rest : Bytes} (h : s.pc i = .sending started rest) (n : Nat) :
      ClientStep cfg s i (s.setClient i (afterSend started (rest.drop n))
        { s.link i with sent := (s.link i).sent ++ rest.take n, up := (s.link i).up ++ rest.take n })
  | sendFails {started : Nat} {rest : Bytes} (h : s.pc i = .sending started rest) (timedOut : Bool) :
      ClientStep cfg s i (s.setClient i
        (.done started s.log.length (localRequest (.error (sendFailed (cfg.op i).name timedOut)))) (s.link i))
  | receive {started : Nat} {conn conn' : Connection} (h : s.pc i = .receiving started conn)
      (hpoll : conn.poll kMaxResponseBytes = .needRead conn') (n : Nat) :
      ClientStep cfg s i (s.setClient i (.receiving started (conn'.append ((s.link i).down.take n)))
        { s.link i with down := (s.link i).down.drop n })
  | reply {started : Nat} {conn conn' : Connection} {line : Bytes} (h : s.pc i = .receiving started conn)
      (hpoll : conn.poll kMaxResponseBytes = .line line conn') :
      ClientStep cfg s i (s.setClient i
        (.done started s.log.length (localRequest (requestRaw cfg.json line))) (s.link i))
  | noReply {started : Nat} {conn : Connection} (h : s.pc i = .receiving started conn)
      (hpoll : ∀ line conn', conn.poll kMaxResponseBytes ≠ .line line conn') (timedOut : Bool) :
      ClientStep cfg s i (s.setClient i
        (.done started s.log.length (localRequest (.error (replyMissing (cfg.op i).name timedOut)))) (s.link i))

/-- One step of the daemon, on the connection of client `i`. -/
inductive DaemonStep (cfg : Setup ι) (s : System ι F) (i : ι) : System ι F → Prop
  | accept (h : s.daemon = .waiting) (hqueued : (s.link i).state = .queued) (huid : cfg.uid i = cfg.daemonUid) :
      DaemonStep cfg s i (s.setDaemon (.serving i .fresh) i { s.link i with state := .accepted })
  | refuse (h : s.daemon = .waiting) (hqueued : (s.link i).state = .queued) (huid : cfg.uid i ≠ cfg.daemonUid)
      {response : Bytes}
      (hresponse : errorResponse cfg.json (text "permission denied: peer uid mismatch") = .ok response)
      (n : Nat) : DaemonStep cfg s i (s.setDaemon .waiting i
        { s.link i with
          state := .accepted
          replied := (s.link i).replied ++ (response ++ [newline]).take n
          down := (s.link i).down ++ (response ++ [newline]).take n })
  | read {conn conn' : Connection} (h : s.daemon = .serving i conn)
      (hpoll : conn.poll kMaxRequestBytes = .needRead conn') (n : Nat) :
      DaemonStep cfg s i (s.setDaemon (.serving i (conn'.append ((s.link i).up.take n))) i
        { s.link i with up := (s.link i).up.drop n })
  | process {conn conn' : Connection} {line : Bytes} (h : s.daemon = .serving i conn)
      (hpoll : conn.poll kMaxRequestBytes = .line line conn') (turn : Turn S) {response : Except Error Bytes}
      {w : World F} (hrespond : respond cfg.json cfg.expectedToken turn line s.world = (response, w)) :
      DaemonStep cfg s i { s with
        daemon := afterRespond i conn' response (ignoresWrite cfg.json line)
        world := w
        log := s.log ++ [⟨i, line, s.world, response, w⟩] }
  | write {conn : Connection} {rest : Bytes} {carryOn : Bool} (h : s.daemon = .replying i conn rest carryOn)
      (n : Nat) : DaemonStep cfg s i (s.setDaemon (afterWrite i conn (rest.drop n) carryOn) i
        { s.link i with replied := (s.link i).replied ++ rest.take n, down := (s.link i).down ++ rest.take n })
  | writeFails {conn : Connection} {rest : Bytes} {carryOn : Bool}
      (h : s.daemon = .replying i conn rest carryOn) :
      DaemonStep cfg s i (s.setDaemon (if carryOn then .serving i conn else .waiting) i (s.link i))
  | hangUp {conn : Connection} (h : s.daemon = .serving i conn)
      (hpoll : ∀ line conn', conn.poll kMaxRequestBytes ≠ .line line conn') :
      DaemonStep cfg s i (s.setDaemon .waiting i (s.link i))

def Step (cfg : Setup ι) (s t : System ι F) : Prop :=
  ∃ i, ClientStep cfg s i t ∨ DaemonStep cfg s i t

abbrev Reachable (cfg : Setup ι) : System ι F → System ι F → Prop :=
  Relation.ReflTransGen (Step cfg)

end Secretov
