import Secretov.Daemon
import Secretov.StoreRefinement

/-! What the peer of a connection gets. Without the token, nothing that depends
on the store. With it, one reply a line, except where an exception leaves the loop. -/

namespace Secretov

variable {S : Sodium} {F : Format S} {json : Nlohmann} {expectedToken : Bytes}

theorem foldl_or_eq_zero {l : List UInt8} {acc : UInt8} :
    l.foldl (· ||| ·) acc = 0 ↔ acc = 0 ∧ ∀ b ∈ l, b = 0 := by
  induction l generalizing acc with
  | nil => simp
  | cons b l ih =>
    rw [List.foldl_cons, ih, List.forall_mem_cons, UInt8.or_eq_zero_iff, and_assoc]

theorem zipWith_xor_eq_zero {xs ys : List UInt8} (h : xs.length = ys.length) :
    (∀ b ∈ List.zipWith (· ^^^ ·) xs ys, b = 0) ↔ xs = ys := by
  induction xs generalizing ys with
  | nil =>
    cases ys with
    | nil => simp
    | cons y ys => simp at h
  | cons x xs ih =>
    cases ys with
    | nil => simp at h
    | cons y ys =>
      rw [List.zipWith_cons_cons, List.forall_mem_cons, ih (by simpa using h), UInt8.xor_eq_zero_iff,
        List.cons.injEq]

theorem tokenMatches_iff {got : Bytes} : tokenMatches expectedToken got = true ↔ got = expectedToken := by
  unfold tokenMatches
  split_ifs with hlen
  · simp only [false_iff]
    intro heq
    exact hlen (by rw [heq])
  · have hlen := not_not.mp hlen
    rw [beq_iff_eq, foldl_or_eq_zero, zipWith_xor_eq_zero hlen]
    simp [eq_comm]

/-- One call on a stream of records: the first record, or a nullopt that only a
long record or a failed read explains. -/
theorem readLine_frame {maxLineBytes : Nat} {conn conn' : Connection} {reads reads' : List ReadResult}
    {result : Option Bytes} {lines : List Bytes} {tail : Bytes}
    (hstream : conn.buffer ++ received reads = Framing.frame newline lines ++ tail)
    (hlines : ∀ l ∈ lines, newline ∉ l) (htail : newline ∉ tail)
    (h : readLine maxLineBytes conn reads = (result, conn', reads')) :
    (∃ line more, result = some line ∧ lines = line :: more ∧ reads' <:+ reads ∧
      conn'.buffer ++ received reads' = Framing.frame newline more ++ tail) ∨
    (result = none ∧ ((∀ r ∈ reads, r.stops = false) → ∀ line ∈ lines.head?, maxLineBytes < line.length)) := by
  cases result with
  | some line =>
    obtain ⟨hfree, hsuffix, hcut⟩ := readLine_some h
    rw [hstream] at hcut
    cases lines with
    | nil => exact absurd (by rw [Framing.frame_nil, List.nil_append] at hcut; simp [hcut]) htail
    | cons l ls =>
      simp only [Framing.frame_cons, List.append_assoc, List.cons_append] at hcut
      obtain ⟨rfl, hrest⟩ := Framing.cut_unique (hlines l (by simp)) hfree hcut
      exact Or.inl ⟨l, ls, rfl, rfl, hsuffix, hrest.symm⟩
  | none =>
    refine Or.inr ⟨rfl, fun hgo line hline => ?_⟩
    obtain ⟨hfree, hsame, hend⟩ := readLine_none h
    obtain ⟨more, rfl⟩ := List.head?_eq_some_iff.mp hline
    rw [hsame] at hstream
    rcases hend with hcap | rfl | ⟨-, r, hr, hstops⟩
    · by_contra hle
      have hpre : line ++ [newline] <+: conn'.buffer := by
        have hrecord : line ++ [newline] <+: conn'.buffer ++ received reads' := by
          rw [hstream]
          simp
        apply List.prefix_of_prefix_length_le hrecord (List.prefix_append _ _)
        simp only [List.length_append, List.length_singleton]
        omega
      exact hfree (hpre.subset (by simp))
    · rw [received_nil, List.append_nil] at hstream
      exact absurd (by rw [hstream]; simp) hfree
    · simp [hgo r hr] at hstops

def NoToken (json : Nlohmann) (expectedToken : Bytes) (lines : List Bytes) : Prop :=
  ∀ line ∈ lines, ∀ req, parseRequest json line = .ok (some req) → req.token ≠ expectedToken

theorem respond_noToken {line : Bytes}
    (h : ∀ req, parseRequest json line = .ok (some req) → req.token ≠ expectedToken) :
    ∃ r : Except Error Bytes, ∀ (turn : Turn S) (w : World F),
      respond json expectedToken turn line w = (r, w) := by
  cases hp : parseRequest json line with
  | error e => exact ⟨.error e, fun turn w => by simp [respond, hp, Prog.bind_apply]⟩
  | ok parsed =>
    cases parsed with
    | none => exact ⟨_, fun turn w => by simp [respond, hp, Prog.bind_apply]; rfl⟩
    | some req =>
      have hno : tokenMatches expectedToken req.token = false := by
        rw [Bool.eq_false_iff]
        exact fun hm => h req hp (tokenMatches_iff.mp hm)
      exact ⟨_, fun turn w => by simp [respond, hp, hno, Prog.bind_apply]; rfl⟩

theorem serveLoop_noToken (turns : Nat → Turn S) (fuel : Nat) {i : Nat} {conn : Connection}
    {reads : List ReadResult} {lines : List Bytes} {tail : Bytes}
    (hstream : conn.buffer ++ received reads = Framing.frame newline lines ++ tail)
    (hlines : ∀ l ∈ lines, newline ∉ l) (htail : newline ∉ tail) (hno : NoToken json expectedToken lines) :
    ∃ served, ∀ w : World F, serveLoop json expectedToken turns fuel i conn reads w = (served, w) := by
  induction fuel generalizing i conn reads lines with
  | zero => exact ⟨_, fun w => rfl⟩
  | succ fuel ih =>
    rcases hread : readLine kMaxRequestBytes conn reads with ⟨result, conn', reads'⟩
    rcases readLine_frame hstream hlines htail hread with ⟨line, more, rfl, rfl, -, hrest⟩ | ⟨rfl, -⟩
    · obtain ⟨r, hr⟩ := @respond_noToken S F json expectedToken line (hno line (by simp))
      cases r with
      | error e => exact ⟨⟨[], .threw e⟩, fun w => by simp only [serveLoop, hread, hr]⟩
      | ok response =>
        have hbuffer : (replyWith conn' response (turns i).sends).2.buffer = conn'.buffer :=
          writeLine_buffer conn' response (turns i).sends
        rw [← hbuffer] at hrest
        obtain ⟨served, hserved⟩ := @ih (i + 1) _ _ more hrest (fun l hl => hlines l (by simp [hl]))
          fun l hl => hno l (by simp [hl])
        cases hstop : !(replyWith conn' response (turns i).sends).1.ok && !ignoresWrite json line with
        | true =>
          exact ⟨⟨[(replyWith conn' response (turns i).sends).1], .closed⟩, fun w => by
            simp only [serveLoop, hread, hr, hstop, if_true]⟩
        | false =>
          refine ⟨{ served with replies := (replyWith conn' response (turns i).sends).1 :: served.replies }, ?_⟩
          intro w
          simp only [serveLoop, hread, hr, hstop, hserved]
          rfl
    · exact ⟨⟨[], .closed⟩, fun w => by simp only [serveLoop, hread]⟩

def requestLines (reads : List ReadResult) : List Bytes :=
  (Framing.unframe newline (received reads)).1

theorem stream_requestLines (reads : List ReadResult) : Connection.fresh.buffer ++ received reads =
    Framing.frame newline (requestLines reads) ++ (Framing.unframe newline (received reads)).2 :=
  (Framing.frame_unframe _).symm

theorem serveConnection_noToken {uid : Nat} {c : Accepted S}
    (hno : c.peerUid = .ok uid → NoToken json expectedToken (requestLines c.reads)) :
    ∃ served, ∀ w : World F, serveConnection json uid expectedToken c w = (served, w) := by
  unfold serveConnection
  split
  · exact ⟨_, fun w => rfl⟩
  · rename_i peer hpeer
    split_ifs with huid
    · split <;> exact ⟨_, fun w => rfl⟩
    · obtain ⟨hlines, htail⟩ := @Framing.unframe_free _ newline _ (received c.reads)
      exact serveLoop_noToken c.turns _ (stream_requestLines c.reads) hlines htail
        (hno (by rw [hpeer, not_not.mp huid]))

theorem serveConnection_otherUid {uid : Nat} {c : Accepted S} (huid : c.peerUid ≠ .ok uid) (w : World F) :
    (serveConnection json uid expectedToken c w).1.replies = [] ∨
    ∃ response, errorResponse json (text "permission denied: peer uid mismatch") = .ok response ∧
      (serveConnection json uid expectedToken c w).1.replies.map Reply.line = [response] := by
  unfold serveConnection
  split
  · exact Or.inl rfl
  · rename_i peer hpeer
    have hne : peer ≠ uid := fun heq => huid (by rw [hpeer, heq])
    rw [if_pos hne]
    cases hresponse : errorResponse json (text "permission denied: peer uid mismatch") with
    | error e => exact Or.inl rfl
    | ok response => exact Or.inr ⟨response, rfl, rfl⟩

theorem serveAll_noToken {uid : Nat} {connections : List (Accepted S)}
    (hno : ∀ c ∈ connections, c.peerUid = .ok uid → NoToken json expectedToken (requestLines c.reads)) :
    ∃ served, ∀ w : World F, serveAll json uid expectedToken connections w = (served, w) := by
  induction connections with
  | nil => exact ⟨[], fun w => rfl⟩
  | cons c more ih =>
    obtain ⟨first, hfirst⟩ := @serveConnection_noToken S F json expectedToken uid c (hno c (by simp))
    obtain ⟨rest, hrest⟩ := ih fun c' hc' => hno c' (by simp [hc'])
    exact ⟨first :: rest, fun w => by simp only [serveAll, hfirst, hrest]⟩

/-- Without the token a peer changes nothing, and any two stores answer it alike:
the same replies and the same endings, on all of its connections. A peer of
another uid gets a fixed line at most. -/
theorem tokenless_peer_learns_nothing (uid : Nat) (connections : List (Accepted S)) (w₁ w₂ : World F)
    (hno : ∀ c ∈ connections, c.peerUid = .ok uid → NoToken json expectedToken (requestLines c.reads)) :
    (serveAll json uid expectedToken connections w₁).1 = (serveAll json uid expectedToken connections w₂).1 ∧
    (serveAll json uid expectedToken connections w₁).2 = w₁ ∧
    (serveAll json uid expectedToken connections w₂).2 = w₂ ∧
    ∀ c ∈ connections, c.peerUid ≠ .ok uid → ∀ w : World F,
      (serveConnection json uid expectedToken c w).1.replies = [] ∨
      ∃ response, errorResponse json (text "permission denied: peer uid mismatch") = .ok response ∧
        (serveConnection json uid expectedToken c w).1.replies.map Reply.line = [response] := by
  obtain ⟨served, hserved⟩ := @serveAll_noToken S F json expectedToken uid connections hno
  rw [hserved w₁, hserved w₂]
  exact ⟨rfl, rfl, rfl, fun c _ huid w => serveConnection_otherUid huid w⟩

def braced (s : String) : Bytes :=
  text "\x7b" ++ text s ++ text "\x7d"

/-- A number that overflows a double is an out_of_range, not a parse_error. -/
def sampleDaemonJson : Nlohmann :=
  let known := tableJson [
    (braced "\"a\":\"b\"", [(text "a", .inl (text "b"))]),
    (braced "\"error\":\"malformed request\",\"ok\":false",
      [(text "error", .inl (text "malformed request")), (text "ok", .inr false)]),
    (braced "\"error\":\"invalid token\",\"ok\":false",
      [(text "error", .inl (text "invalid token")), (text "ok", .inr false)]),
    (braced "\"error\":\"permission denied: peer uid mismatch\",\"ok\":false",
      [(text "error", .inl (text "permission denied: peer uid mismatch")), (text "ok", .inr false)]),
    (braced "\"ok\":true", [(text "ok", .inr true)]),
    (braced "\"key\":\"a\",\"op\":\"set\",\"token\":\"t\",\"value\":\"b\"",
      [(text "key", .inl (text "a")), (text "op", .inl (text "set")), (text "token", .inl (text "t")),
        (text "value", .inl (text "b"))]),
    (braced "\"op\":\"list\",\"token\":\"u\"",
      [(text "op", .inl (text "list")), (text "token", .inl (text "u"))])]
  { parse := fun b =>
      if b = text "1e999" then
        .error (.outOfRange (text "[json.exception.out_of_range.406] number overflow parsing '1e999'"))
      else known.parse b
    dump := known.dump }

def sampleTurn : Turn taggedBoxes.sodium where
  now := 9
  env := sampleEnv 6
  sends := [.interrupted, .sent 1, .sent 1000]

def guessing : Accepted taggedBoxes.sodium where
  peerUid := .ok 1000
  reads := [.bytes (braced "\"op\":\"list\",\"token\":\"u\""), .bytes (text "\n"), .bytes (text "1e999\n")]
  turns _ := sampleTurn

def otherUser : Accepted taggedBoxes.sodium :=
  { guessing with peerUid := .ok 1001 }

theorem tokenless_peer_learns_nothing_sample :
    (serveAll sampleDaemonJson 1000 (text "t") [guessing, otherUser] sampleStart).1 =
      (serveAll sampleDaemonJson 1000 (text "t") [guessing, otherUser] sampleRun.1).1 := by
  refine (tokenless_peer_learns_nothing 1000 [guessing, otherUser] sampleStart sampleRun.1 ?_).1
  intro c hc huid
  rcases List.mem_pair.mp hc with rfl | rfl
  · have hlines : requestLines guessing.reads = [braced "\"op\":\"list\",\"token\":\"u\"", text "1e999"] := by
      decide
    have hlist : parseRequest sampleDaemonJson (braced "\"op\":\"list\",\"token\":\"u\"") =
        .ok (some ⟨text "u", text "list", [], [], [], []⟩) := rfl
    have hoverflow : parseRequest sampleDaemonJson (text "1e999") = .error
        (.outOfRange (text "[json.exception.out_of_range.406] number overflow parsing '1e999'")) := rfl
    show NoToken sampleDaemonJson (text "t") (requestLines guessing.reads)
    rw [hlines]
    intro line hline req hreq
    rcases List.mem_pair.mp hline with rfl | rfl
    · rw [hlist] at hreq
      cases hreq
      decide
    · rw [hoverflow] at hreq
      cases hreq
  · cases huid

/-- The texts without contents of a request or of the store are always dumped. -/
structure FixedReplies (json : Nlohmann) : Prop where
  malformed : ∃ r, errorResponse json (text "malformed request") = .ok r
  invalidToken : ∃ r, errorResponse json kErrInvalidToken = .ok r
  ok : ∃ r, okResponse json = .ok r

/-- The reply that a line is owed: that of dispatch to a request with the token,
and a fixed one otherwise, whatever it was that the parser threw. -/
def owed (json : Nlohmann) (expectedToken : Bytes) (turn : Turn S) (line : Bytes) : StoreM F Bytes :=
  match parseRequest json line with
  | .ok (some req) =>
    if tokenMatches expectedToken req.token then
      Prog.tryCatch (dispatch json turn.env req turn.now) fun e => Prog.ofExcept (errorResponse json e.what)
    else Prog.ofExcept (errorResponse json kErrInvalidToken)
  | _ => Prog.ofExcept (errorResponse json (text "malformed request"))

/-- The lines before the first that is longer than the cap. -/
def upToTooLong (lines : List Bytes) : List Bytes :=
  lines.takeWhile fun line => line.length ≤ kMaxRequestBytes

theorem upToTooLong_of_le {line : Bytes} (more : List Bytes) (h : line.length ≤ kMaxRequestBytes) :
    upToTooLong (line :: more) = line :: upToTooLong more := by
  simp [upToTooLong, h]

theorem upToTooLong_of_lt {line : Bytes} (more : List Bytes) (h : kMaxRequestBytes < line.length) :
    upToTooLong (line :: more) = [] := by
  simp [upToTooLong, Nat.not_le.mpr h]

def owedAll (json : Nlohmann) (expectedToken : Bytes) (turns : Nat → Turn S) :
    Nat → List Bytes → StoreM F (List Bytes)
  | _, [] => pure []
  | i, line :: more => do
    let reply ← owed json expectedToken (turns i) line
    return reply :: (← owedAll json expectedToken turns (i + 1) more)

/-- One reply for each line of an initial part of the stream, the owed one, and
the store that dispatch made of these lines. The part goes up to the first line
that is too long, or beyond. -/
def EveryLineAnswered (json : Nlohmann) (expectedToken : Bytes) (turns : Nat → Turn S) (lines : List Bytes)
    (w : World F) (result : Served × World F) : Prop :=
  ∃ n, (upToTooLong lines).length ≤ n ∧
    owedAll json expectedToken turns 0 (lines.take n) w = (.ok (result.1.replies.map Reply.line), result.2)

/-- The parser throws at most a parse_error, and what dispatch throws has a text
that can be dumped. -/
def Answerable (json : Nlohmann) (expectedToken : Bytes) (turn : Turn S) (line : Bytes) (w : World F) : Prop :=
  (∀ e, json.parse line = .error e → ∃ what, e = .parseError what) ∧
  ∀ req, parseRequest json line = .ok (some req) → req.token = expectedToken →
    ∀ e w', dispatch json turn.env req turn.now w = (.error e, w') → ∃ r, errorResponse json e.what = .ok r

def AllAnswerable (json : Nlohmann) (expectedToken : Bytes) (turns : Nat → Turn S) :
    Nat → List Bytes → World F → Prop
  | _, [], _ => True
  | i, line :: more, w => Answerable json expectedToken (turns i) line w ∧
    AllAnswerable json expectedToken turns (i + 1) more (owed json expectedToken (turns i) line w).2

theorem parseRequest_eq_error {line : Bytes} {e : Error} :
    parseRequest json line = .error e ↔ json.parse line = .error e ∧ ∀ what, e ≠ .parseError what := by
  cases hp : json.parse line with
  | error e' =>
    cases e' with
    | parseError what =>
      simp only [parseRequest, hp, reduceCtorEq, Except.error.injEq, false_iff, not_and, not_forall, not_not]
      rintro rfl
      exact ⟨what, rfl⟩
    | runtimeError | outOfRange | typeError =>
      simp only [parseRequest, hp, Except.error.injEq]
      constructor
      · rintro rfl
        exact ⟨rfl, fun what => by simp⟩
      · exact fun h => h.1
  | ok j =>
    simp only [parseRequest, hp, reduceCtorEq, false_and, iff_false]
    split_ifs
    · simp
    · split <;> simp

theorem ofExcept_error {α : Type} {r : Except Error α} {w w' : World F} {e : Error}
    (h : (Prog.ofExcept r : StoreM F α) w = (.error e, w')) : w' = w := by
  simpa [eq_comm] using congrArg Prod.snd h

theorem then_okResponse_error (hok : ∃ r, okResponse json = .ok r) {m : StoreM F PUnit} {w w' : World F}
    {e : Error} (hm : m w = (.error e, w') → w' = w)
    (h : (m >>= fun _ => Prog.ofExcept (okResponse json)) w = (.error e, w')) : w' = w := by
  obtain ⟨r, hr⟩ := hok
  rcases Prog.bind_eq_error.mp h with h | ⟨_, t, -, h⟩
  · exact hm h
  · simp [hr] at h

theorem ite_error {c : Prop} [Decidable c] {m n : StoreM F Bytes} {w w' : World F} {e : Error}
    (hm : m w = (.error e, w') → w' = w) (hn : n w = (.error e, w') → w' = w) :
    (if c then m else n) w = (.error e, w') → w' = w := by
  split_ifs
  · exact hm
  · exact hn

theorem dispatch_error (hok : ∃ r, okResponse json = .ok r) {env : Env S} {req : Request} {now : UInt64}
    {w w' : World F} {e : Error} (h : dispatch json env req now w = (.error e, w')) : w' = w := by
  revert h
  refine ite_error (ite_error ofExcept_error fun hget => ?_) (ite_error (ite_error ofExcept_error fun hset => ?_)
    (ite_error (ite_error ofExcept_error fun hdelete => ?_) (ite_error (fun hlist => ?_)
    (ite_error (ite_error ofExcept_error fun hprefix => ?_)
    (ite_error (ite_error ofExcept_error fun hrotate => ?_)
    (ite_error (ite_error ofExcept_error fun hpasswd => ?_) ofExcept_error))))))
  · rcases Prog.bind_ofExcept_eq_error.mp (Prog.bind_get.symm.trans hget) with ⟨-, hw⟩ | ⟨value, -, hreply⟩
    · exact hw
    · cases value with
      | none => exact ofExcept_error hreply
      | some value => exact ofExcept_error hreply
  · exact then_okResponse_error hok Store.set_error hset
  · rcases Prog.bind_eq_error.mp hdelete with hm | ⟨removed, t, hr, hreply⟩
    · exact Store.remove_error hm
    · obtain ⟨r, hok⟩ := hok
      rcases Store.remove_ok hr with ⟨rfl, -, rfl⟩ | ⟨rfl, -⟩
      · exact ofExcept_error hreply
      · simp [hok] at hreply
  · exact ofExcept_error (Prog.bind_get.symm.trans hlist)
  · rcases Prog.bind_ofExcept_eq_error.mp (Prog.bind_get.symm.trans hprefix) with ⟨-, hw⟩ | ⟨values, -, hreply⟩
    · exact hw
    · exact ofExcept_error hreply
  · exact then_okResponse_error hok Store.rotate_error hrotate
  · exact then_okResponse_error hok Store.changePassphrase_error hpasswd

/-- A line gets the reply it is owed, or the loop is left with the store as it was. -/
theorem respond_cases (hfixed : FixedReplies json) (expectedToken : Bytes) (turn : Turn S) (line : Bytes)
    (w : World F) :
    (Answerable json expectedToken turn line w ∧ ∃ reply w',
      owed json expectedToken turn line w = (.ok reply, w') ∧
      respond json expectedToken turn line w = (.ok reply, w')) ∨
    (¬ Answerable json expectedToken turn line w ∧ ∃ e,
      respond json expectedToken turn line w = (.error e, w)) := by
  cases hp : parseRequest json line with
  | error e =>
    obtain ⟨hparse, hother⟩ := parseRequest_eq_error.mp hp
    refine Or.inr ⟨fun ha => ?_, e, by simp [respond, hp, Prog.bind_apply]⟩
    obtain ⟨what, hwhat⟩ := ha.1 e hparse
    exact hother what hwhat
  | ok parsed =>
    have hparse : ∀ e, json.parse line = .error e → ∃ what, e = .parseError what := by
      intro e he
      by_contra hne
      have herr := parseRequest_eq_error.mpr ⟨he, fun what hwhat => hne ⟨what, hwhat⟩⟩
      rw [hp] at herr
      cases herr
    cases parsed with
    | none =>
      obtain ⟨reply, hreply⟩ := hfixed.malformed
      refine Or.inl ⟨⟨hparse, by simp [hp]⟩, reply, w, ?_, ?_⟩
      · simp [owed, hp, hreply]
      · simp [respond, hp, hreply, Prog.bind_apply]
    | some req =>
      cases hm : tokenMatches expectedToken req.token with
      | false =>
        obtain ⟨reply, hreply⟩ := hfixed.invalidToken
        have hne : req.token ≠ expectedToken := fun heq => by simp [tokenMatches_iff.mpr heq] at hm
        refine Or.inl ⟨⟨hparse, ?_⟩, reply, w, ?_, ?_⟩
        · intro req' hreq' htoken
          obtain rfl : req = req' := by simpa [hp] using hreq'
          exact absurd htoken hne
        · simp [owed, hp, hm, hreply]
        · simp [respond, hp, hm, hreply, Prog.bind_apply]
      | true =>
        have hsame : respond json expectedToken turn line w = owed json expectedToken turn line w := by
          simp [respond, owed, hp, hm, Prog.bind_apply]
        have howed : owed json expectedToken turn line w =
            Prog.tryCatch (dispatch json turn.env req turn.now)
              (fun e => Prog.ofExcept (errorResponse json e.what)) w := by
          simp [owed, hp, hm]
        rw [hsame, howed]
        rcases hd : dispatch json turn.env req turn.now w with ⟨e | reply, w'⟩
        · have hw := dispatch_error hfixed.ok hd
          subst hw
          cases hr : errorResponse json e.what with
          | ok reply =>
            refine Or.inl ⟨⟨hparse, ?_⟩, reply, w', ?_, ?_⟩
            · intro req' hreq' _ e' t hd'
              obtain rfl : req = req' := by simpa [hp] using hreq'
              obtain ⟨rfl, -⟩ : e = e' ∧ w' = t := by simpa [hd] using hd'
              exact ⟨reply, hr⟩
            · simp [Prog.tryCatch, hd, hr]
            · simp [Prog.tryCatch, hd, hr]
          | error e' =>
            refine Or.inr ⟨fun ha => ?_, e', by simp [Prog.tryCatch, hd, hr]⟩
            obtain ⟨reply, hreply⟩ := ha.2 req hp (tokenMatches_iff.mp hm) e w' hd
            rw [hr] at hreply
            cases hreply
        · refine Or.inl ⟨⟨hparse, ?_⟩, reply, w', ?_, ?_⟩
          · intro req' hreq' _ e' t hd'
            obtain rfl : req = req' := by simpa [hp] using hreq'
            simp [hd] at hd'
          · simp [Prog.tryCatch, hd]
          · simp [Prog.tryCatch, hd]

theorem owedAll_cons {turns : Nat → Turn S} {i : Nat} {line reply : Bytes} {more replies : List Bytes}
    {w w' w'' : World F} (h : owed json expectedToken (turns i) line w = (.ok reply, w'))
    (hmore : owedAll json expectedToken turns (i + 1) more w' = (.ok replies, w'')) :
    owedAll json expectedToken turns i (line :: more) w = (.ok (reply :: replies), w'') := by
  rw [owedAll, Prog.bind_of_ok h, Prog.bind_of_ok hmore]
  rfl

theorem length_of_owedAll {turns : Nat → Turn S} {i : Nat} {lines replies : List Bytes} {w w' : World F}
    (h : owedAll json expectedToken turns i lines w = (.ok replies, w')) : replies.length = lines.length := by
  induction lines generalizing i w w' replies with
  | nil =>
    obtain rfl : [] = replies := by simpa [owedAll] using congrArg Prod.fst h
    rfl
  | cons line more ih =>
    obtain ⟨reply, t, -, h⟩ := Prog.bind_eq_ok.mp h
    obtain ⟨rest, t', hrest, h⟩ := Prog.bind_eq_ok.mp h
    obtain rfl : reply :: rest = replies := by simpa using congrArg Prod.fst h
    rw [List.length_cons, List.length_cons, ih hrest]

theorem serveLoop_owed (hfixed : FixedReplies json) {turns : Nat → Turn S} {fuel i : Nat} {conn : Connection}
    {reads : List ReadResult} {lines : List Bytes} {tail : Bytes} {w : World F}
    (hstream : conn.buffer ++ received reads = Framing.frame newline lines ++ tail)
    (hlines : ∀ l ∈ lines, newline ∉ l) (htail : newline ∉ tail) (hgo : ∀ r ∈ reads, r.stops = false)
    (hfuel : (conn.buffer ++ received reads).length < fuel)
    (hwritten : ∀ r ∈ (serveLoop json expectedToken turns fuel i conn reads w).1.replies, r.ok = true) :
    ∃ n, n ≤ lines.length ∧
      owedAll json expectedToken turns i (lines.take n) w =
        (.ok ((serveLoop json expectedToken turns fuel i conn reads w).1.replies.map Reply.line),
          (serveLoop json expectedToken turns fuel i conn reads w).2) ∧
      ((upToTooLong lines).length ≤ n ↔
        AllAnswerable json expectedToken turns i (upToTooLong lines) w) := by
  induction fuel generalizing i conn reads lines w with
  | zero => omega
  | succ fuel ih =>
    rcases hread : readLine kMaxRequestBytes conn reads with ⟨result, conn', reads'⟩
    rcases readLine_frame hstream hlines htail hread with ⟨line, more, rfl, rfl, hsuffix, hrest⟩ | ⟨rfl, hlong⟩
    · rcases respond_cases hfixed expectedToken (turns i) line w with ⟨ha, reply, w', howed, hrespond⟩ |
        ⟨hna, e, hrespond⟩
      · simp only [serveLoop, hread, hrespond] at hwritten ⊢
        have hbuffer : (replyWith conn' reply (turns i).sends).2.buffer = conn'.buffer :=
          writeLine_buffer conn' reply (turns i).sends
        have hok : (replyWith conn' reply (turns i).sends).1.ok = true := by
          split_ifs at hwritten
          · exact hwritten _ (by simp)
          · exact hwritten _ (by simp)
        simp only [hok, Bool.not_true, Bool.false_and, Bool.false_eq_true, if_false] at hwritten ⊢
        have hnext : ((replyWith conn' reply (turns i).sends).2.buffer ++ received reads').length < fuel := by
          have hlen := congrArg List.length hstream
          have hlen' := congrArg List.length hrest
          rw [hbuffer]
          simp only [Framing.frame_cons, List.length_append, List.length_cons] at hlen hlen' hfuel ⊢
          omega
        obtain ⟨n, hn, hall, hiff⟩ := ih (hbuffer ▸ hrest) (fun l hl => hlines l (by simp [hl]))
          (fun r hr => hgo r (hsuffix.subset hr)) hnext fun r hr => hwritten r (List.mem_cons_of_mem _ hr)
        refine ⟨n + 1, by simpa using hn, ?_, ?_⟩
        · rw [List.take_succ_cons, owedAll_cons howed hall]
          rfl
        · rcases Nat.lt_or_ge kMaxRequestBytes line.length with hlong | hshort
          · simp [upToTooLong_of_lt more hlong, AllAnswerable]
          · simp only [upToTooLong_of_le more hshort, List.length_cons, AllAnswerable, ha, true_and, howed,
              Nat.add_le_add_iff_right, hiff]
      · refine ⟨0, by simp, ?_, ?_⟩
        · simp only [serveLoop, hread, hrespond, List.take_zero, owedAll]
          rfl
        · rcases Nat.lt_or_ge kMaxRequestBytes line.length with hlong | hshort
          · simp [upToTooLong_of_lt more hlong, AllAnswerable]
          · simp [upToTooLong_of_le more hshort, AllAnswerable, hna]
    · refine ⟨0, by simp, ?_, ?_⟩
      · simp only [serveLoop, hread, List.take_zero, owedAll]
        rfl
      · cases lines with
        | nil => simp [upToTooLong, AllAnswerable]
        | cons line more => simp [upToTooLong_of_lt more (hlong hgo line (by simp)), AllAnswerable]

/-- On a connection that stays up, every line gets its reply exactly when each of
them, up to the first that is too long, can be answered: the parser throws
nothing but parse_error, and errors of the store have texts that can be dumped. -/
theorem every_line_answered_iff (hfixed : FixedReplies json) {uid : Nat} {c : Accepted S} (w : World F)
    (hpeer : c.peerUid = .ok uid) (hgo : ∀ r ∈ c.reads, r.stops = false)
    (hwritten : ∀ r ∈ (serveConnection json uid expectedToken c w).1.replies, r.ok = true) :
    EveryLineAnswered json expectedToken c.turns (requestLines c.reads) w
      (serveConnection json uid expectedToken c w) ↔
    AllAnswerable json expectedToken c.turns 0 (upToTooLong (requestLines c.reads)) w := by
  have hserve : serveConnection json uid expectedToken c w =
      serveLoop json expectedToken c.turns ((received c.reads).length + 1) 0 .fresh c.reads w := by
    simp [serveConnection, hpeer]
  rw [hserve] at hwritten ⊢
  obtain ⟨hlines, htail⟩ := @Framing.unframe_free _ newline _ (received c.reads)
  have hfuel : (Connection.fresh.buffer ++ received c.reads).length < (received c.reads).length + 1 := by
    simp [Connection.fresh]
  obtain ⟨n, hn, hall, hiff⟩ := serveLoop_owed hfixed (stream_requestLines c.reads)
    hlines htail hgo hfuel hwritten
  rw [← hiff]
  constructor
  · rintro ⟨m, hm, hall'⟩
    have hlen := length_of_owedAll hall
    have hlen' := length_of_owedAll hall'
    have hpre : (upToTooLong (requestLines c.reads)).length ≤ (requestLines c.reads).length :=
      (List.takeWhile_prefix _).length_le
    simp only [List.length_take] at hlen hlen'
    omega
  · exact fun hle => ⟨n, hle, hall⟩

def settingClient : Accepted taggedBoxes.sodium where
  peerUid := .ok 1000
  reads := [.bytes (text "\x7b\"key\":\"a\",\"op\":\"set\","), .interrupted,
    .bytes (text "\"token\":\"t\",\"value\":\"b\"\x7d\nx"), .bytes (text "\n")]
  turns _ := sampleTurn

theorem every_line_answered_iff_sample : EveryLineAnswered sampleDaemonJson (text "t") settingClient.turns
    (requestLines settingClient.reads) sampleStart
    (serveConnection sampleDaemonJson 1000 (text "t") settingClient sampleStart) := by
  have hfixed : FixedReplies sampleDaemonJson := ⟨⟨_, rfl⟩, ⟨_, rfl⟩, ⟨_, rfl⟩⟩
  have hwritten : (serveConnection sampleDaemonJson 1000 (text "t") settingClient sampleStart).1.replies.map
      Reply.ok = [true, true] := by decide +kernel
  have hlines : upToTooLong (requestLines settingClient.reads) =
      [braced "\"key\":\"a\",\"op\":\"set\",\"token\":\"t\",\"value\":\"b\"", text "x"] := by
    decide +kernel
  have hset : parseRequest sampleDaemonJson
      (braced "\"key\":\"a\",\"op\":\"set\",\"token\":\"t\",\"value\":\"b\"") =
      .ok (some ⟨text "t", text "set", text "a", text "b", [], []⟩) := rfl
  have hdispatch : (dispatch sampleDaemonJson sampleTurn.env
      ⟨text "t", text "set", text "a", text "b", [], []⟩ 9 sampleStart).1.isOk = true := by decide +kernel
  have hother : parseRequest sampleDaemonJson (text "x") = .ok none := rfl
  refine (every_line_answered_iff hfixed sampleStart rfl (by decide) ?_).mpr ?_
  · intro r hr
    have hmem : r.ok ∈ [true, true] := by
      rw [← hwritten]
      exact List.mem_map_of_mem hr
    simpa using hmem
  · rw [hlines]
    refine ⟨⟨fun e he => ?_, fun req hreq _ e w hd => ?_⟩, ⟨fun e he => ?_, fun req hreq => ?_⟩, trivial⟩
    · cases he
    · rw [hset] at hreq
      cases hreq
      rw [show dispatch sampleDaemonJson sampleTurn.env _ 9 sampleStart = (.error e, w) from hd] at hdispatch
      cases hdispatch
    · cases he
      exact ⟨[], rfl⟩
    · rw [hother] at hreq
      cases hreq

def overflowingClient : Accepted taggedBoxes.sodium where
  peerUid := .ok 1000
  reads := [.bytes (text "1e999\nx\n")]
  turns _ := sampleTurn

/-- A line whose number overflows ends the connection: it has no reply, and
neither has the line after it. -/
theorem overflowing_line_unanswered :
    (∀ r ∈ overflowingClient.reads, r.stops = false) ∧
    (∀ r ∈ (serveConnection sampleDaemonJson 1000 (text "t") overflowingClient sampleStart).1.replies,
      r.ok = true) ∧
    ¬ EveryLineAnswered sampleDaemonJson (text "t") overflowingClient.turns
      (requestLines overflowingClient.reads) sampleStart
      (serveConnection sampleDaemonJson 1000 (text "t") overflowingClient sampleStart) := by
  have hreplies :
      (serveConnection sampleDaemonJson 1000 (text "t") overflowingClient sampleStart).1.replies = [] := rfl
  have hlines : requestLines overflowingClient.reads = [text "1e999", text "x"] := by decide
  refine ⟨by decide, by simp [hreplies], ?_⟩
  rintro ⟨n, hn, hall⟩
  have hlen := length_of_owedAll hall
  have htwo : (upToTooLong [text "1e999", text "x"]).length = 2 := by decide
  rw [hlines, htwo] at hn
  simp only [hreplies, hlines, List.map_nil, List.length_nil, List.length_take, List.length_cons] at hlen
  omega

end Secretov
