import Secretov.ClientRequests

/-! What one request of a client does to the store, whatever becomes of it. -/

namespace Secretov

def ClientError.what : ClientError → Bytes
  | unreachable e => e.what
  | error e => e.what

/-- The request was sent, and the daemon may handle it after its caller gave up. -/
def ClientError.maybeApplied : ClientError → Bool
  | unreachable e => e.stage == .sent
  | error _ => false

variable {S : Sodium} {F : Format S} {c : Channel} {op key : Bytes} {value : Option Bytes} {w w' : World F}

/-- A request is not handled, and its caller knows that it may not have been. Or it is
handled, and its caller gets the reply or an error that leaves it open. -/
inductive Exchanged (c : Channel) (op key : Bytes) (value : Option Bytes) (w : World F) :
    Except ClientError Json → World F → Prop
  | unhandled (e : ClientError) : Exchanged c op key value w (.error e) w
  | handled {line : Bytes} {turn : Turn S} {response : Except Error Bytes} {w' : World F}
      {r : Except ClientError Json} (hline : serializeRequest c.json c.token op key value = .ok line)
      (hrespond : respond c.json c.expectedToken turn line w = (response, w'))
      (hr : (∃ e, r = .error e ∧ e.maybeApplied = true) ∨ ∃ reply, response = .ok reply ∧
      r = requestRaw c.json reply) : Exchanged c op key value w r w'

theorem exchange_exchanged (c : Channel) (op key : Bytes) (value : Option Bytes) (fate : Fate S) (w : World F) :
    Exchanged c op key value w (c.exchange op key value fate w).1 (c.exchange op key value fate w).2 := by
  cases fate with
  | notRunning => exact .unhandled _
  | servedByOther daemonUid => exact .unhandled _
  | connected delivery =>
    unfold Channel.exchange
    cases hline : serializeRequest c.json c.token op key value with
    | error e => exact .unhandled _
    | ok line =>
      match delivery with
      | .sendFails timedOut | .noReply timedOut none => exact .unhandled _
      | .noReply timedOut (some turn) => exact .handled hline rfl (.inl ⟨_, rfl, rfl⟩)
      | .replies turn =>
        simp only [Channel.deliver]
        rcases hrespond : respond c.json c.expectedToken turn line w with ⟨e | reply, w'⟩
        · exact .handled hline hrespond (.inl ⟨_, rfl, rfl⟩)
        · dsimp only
          split_ifs with hlong
          · exact .handled hline hrespond (.inl ⟨_, rfl, rfl⟩)
          · exact .handled hline hrespond (.inr ⟨reply, rfl, rfl⟩)

theorem requestRaw_error (hparse : c.json.ParseUndoesDump) {msg reply : Bytes}
    (h : errorResponse c.json msg = .ok reply) : ∃ e, requestRaw c.json reply = .error (.error e) :=
  ⟨_, requestRaw_errorResponse hparse h⟩

section

variable {turn : Turn S} {response : Except Error Bytes}

theorem dispatch_set {json : Nlohmann} {token key value : Bytes} {env : Env S} {now : UInt64} :
    (dispatch json env ⟨token, text "set", key, value, [], []⟩ now : StoreM F Bytes) =
      if key = [] then Prog.ofExcept (errorResponse json (text "missing key"))
      else (do
        Store.set json env key value
        Prog.ofExcept (okResponse json)) := by
  have hother : text "set" ≠ text "get" := by decide
  rw [dispatch, if_neg hother, if_pos rfl]

theorem dispatch_delete {json : Nlohmann} {token key value : Bytes} {env : Env S} {now : UInt64} :
    (dispatch json env ⟨token, text "delete", key, value, [], []⟩ now : StoreM F Bytes) =
      if key = [] then Prog.ofExcept (errorResponse json (text "missing key"))
      else (do
        if ← Store.remove json env key then Prog.ofExcept (okResponse json)
        else Prog.ofExcept (errorResponse json kErrNotFound)) := by
  have hother : text "delete" ≠ text "get" ∧ text "delete" ≠ text "set" := by decide
  rw [dispatch, if_neg hother.1, if_neg hother.2, if_pos rfl]

/-- A set that the daemon handles is stored and acknowledged, or refused with the
store as it was. -/
theorem respond_set (hparse : c.json.ParseUndoesDump) (hok : ∃ r, okResponse c.json = .ok r)
    {key value line : Bytes} (hline : serializeRequest c.json c.token (text "set") key (some value) = .ok line)
    (hrespond : respond c.json c.expectedToken turn line w = (response, w')) :
    (w'.store.data = w.store.data.insert key (.string value) ∧ response = okResponse c.json) ∨
      (w' = w ∧ ∀ reply, response = .ok reply → ∃ e, requestRaw c.json reply = .error (.error e)) := by
  have herror : ∀ {w : World F} {msg},
      (Prog.ofExcept (errorResponse c.json msg) : StoreM F Bytes) w = (response, w') →
      w' = w ∧ ∀ reply, response = .ok reply → ∃ e, requestRaw c.json reply = .error (.error e) := by
    intro w msg h
    obtain ⟨rfl, rfl⟩ := Prod.mk.inj h
    exact ⟨rfl, fun reply hreply => requestRaw_error hparse hreply⟩
  rw [respond_serialized hparse hline] at hrespond
  split_ifs at hrespond
  · exact .inr (herror hrespond)
  · simp only [Prog.tryCatch, Option.getD_some] at hrespond
    rcases hd : dispatch c.json turn.env ⟨c.token, text "set", key, value, [], []⟩ turn.now w with ⟨e | reply, t⟩
    · rw [hd] at hrespond
      obtain rfl := dispatch_error hok hd
      exact .inr (herror hrespond)
    · rw [hd] at hrespond
      obtain ⟨rfl, rfl⟩ := Prod.mk.inj hrespond
      rw [dispatch_set] at hd
      split_ifs at hd
      · exact .inr (herror hd)
      · obtain ⟨_, t', hset, hreply⟩ := Prog.bind_eq_ok.mp hd
        obtain ⟨hr, rfl⟩ := Prod.mk.inj hreply
        obtain ⟨hstore, -⟩ := Store.set_ok hset
        exact .inl ⟨congrArg Store.data hstore, hr.symm⟩

theorem respond_getPrefix (hparse : c.json.ParseUndoesDump) {pre line : Bytes} (hpre : pre ≠ [])
    (hline : serializeRequest c.json c.token (text "getprefix") pre none = .ok line)
    (hrespond : respond c.json c.expectedToken turn line w = (response, w')) :
    w' = w ∧ ∀ reply, response = .ok reply → (∃ e, requestRaw c.json reply = .error (.error e)) ∨
      ∃ entries, w.store.getPrefix pre = .ok entries ∧ okValues c.json entries = .ok reply := by
  have herror : ∀ {msg}, (Prog.ofExcept (errorResponse c.json msg) : StoreM F Bytes) w = (response, w') →
      w' = w ∧ ∀ reply, response = .ok reply → (∃ e, requestRaw c.json reply = .error (.error e)) ∨
        ∃ entries, w.store.getPrefix pre = .ok entries ∧ okValues c.json entries = .ok reply := by
    intro msg h
    obtain ⟨rfl, rfl⟩ := Prod.mk.inj h
    exact ⟨rfl, fun reply hreply => .inl (requestRaw_error hparse hreply)⟩
  rw [respond_serialized hparse hline] at hrespond
  split_ifs at hrespond
  · exact herror hrespond
  · simp only [Prog.tryCatch, Option.getD_none, dispatch_getPrefix hpre] at hrespond
    cases hentries : w.store.getPrefix pre >>= okValues c.json with
    | error e =>
      rw [hentries] at hrespond
      exact herror hrespond
    | ok reply =>
      rw [hentries] at hrespond
      obtain ⟨rfl, rfl⟩ := Prod.mk.inj hrespond
      obtain ⟨entries, hget, hvalues⟩ := Prog.except_bind_eq_ok.mp hentries
      refine ⟨rfl, fun reply' hreply => .inr ⟨entries, hget, ?_⟩⟩
      rw [← Except.ok.inj hreply, hvalues]

end

/-- What is stored is acknowledged, or may be: an error that rules it out leaves the store alone. -/
theorem exchange_set (hparse : c.json.ParseUndoesDump) (hok : ∃ r, okResponse c.json = .ok r) {key value : Bytes}
    {r : Except ClientError Json} (h : Exchanged c (text "set") key (some value) w r w') :
    (w' = w ∧ ∃ e, r = .error e) ∨
      (w'.store.data = w.store.data.insert key (.string value) ∧ ∀ e, r = .error e → e.maybeApplied = true) := by
  cases h with
  | unhandled e => exact .inl ⟨rfl, e, rfl⟩
  | handled hline hrespond hr =>
    rcases respond_set hparse hok hline hrespond with ⟨hdata, hresponse⟩ | ⟨rfl, hrefused⟩
    · refine .inr ⟨hdata, fun e he => ?_⟩
      rcases hr with ⟨e', rfl, happlied⟩ | ⟨reply, hreply, rfl⟩
      · rw [← Except.error.inj he]
        exact happlied
      · rw [requestRaw_okResponse hparse (hresponse.symm.trans hreply)] at he
        cases he
    · rcases hr with ⟨e, rfl, -⟩ | ⟨reply, hreply, rfl⟩
      · exact .inl ⟨rfl, e, rfl⟩
      · obtain ⟨e, he⟩ := hrefused reply hreply
        exact .inl ⟨rfl, _, he⟩

theorem exchange_getPrefix (hparse : c.json.ParseUndoesDump) {pre : Bytes} (hpre : pre ≠ [])
    {r : Except ClientError Json} (h : Exchanged c (text "getprefix") pre none w r w') :
    w' = w ∧ ∀ resp, r = .ok resp → ∃ entries, w.store.getPrefix pre = .ok entries ∧
      resp = .object [(text "ok", .boolean true),
        (text "values", .object (entries.map fun v => (v.1, .string v.2)))] := by
  cases h with
  | unhandled e => exact ⟨rfl, nofun⟩
  | handled hline hrespond hr =>
    obtain ⟨rfl, hreplied⟩ := respond_getPrefix hparse hpre hline hrespond
    refine ⟨rfl, fun resp hresp => ?_⟩
    rcases hr with ⟨e, rfl, -⟩ | ⟨reply, hreply, rfl⟩
    · cases hresp
    · rcases hreplied reply hreply with ⟨e, he⟩ | ⟨entries, hget, hvalues⟩
      · rw [he] at hresp
        cases hresp
      · rw [requestRaw_okValues hparse hvalues] at hresp
        exact ⟨entries, hget, (Except.ok.inj hresp).symm⟩

theorem dispatch_list {json : Nlohmann} {token : Bytes} {env : Env S} {now : UInt64} :
    dispatch json env ⟨token, text "list", [], [], [], []⟩ now w = (okKeys json w.store.list, w) := by
  have hother : text "list" ≠ text "get" ∧ text "list" ≠ text "set" ∧ text "list" ≠ text "delete" := by decide
  rw [dispatch, if_neg hother.1, if_neg hother.2.1, if_neg hother.2.2, if_pos rfl]
  rfl

theorem requestRaw_okKeys (hparse : c.json.ParseUndoesDump) {keys : List Bytes} {r : Bytes}
    (h : okKeys c.json keys = .ok r) : requestRaw c.json r =
      .ok (.object [(text "keys", .array (keys.map .string)), (text "ok", .boolean true)]) := by
  have hline := hparse _ _ h
  simp only [requestRaw, hline]
  rfl

theorem exchange_list (hparse : c.json.ParseUndoesDump) {resp : Json}
    (h : Exchanged c (text "list") [] none w (.ok resp) w') :
    resp = .object [(text "keys", .array (w.store.list.map .string)), (text "ok", .boolean true)] := by
  have herror : ∀ {w : World F} {msg reply},
      (Prog.ofExcept (errorResponse c.json msg) : StoreM F Bytes) w = (.ok reply, w') →
      requestRaw c.json reply ≠ .ok resp := by
    intro w msg reply h hresp
    obtain ⟨e, he⟩ := requestRaw_error hparse (Prod.mk.inj h).1
    cases he.symm.trans hresp
  cases h with
  | handled hline hrespond hr =>
    rcases hr with ⟨e, he, -⟩ | ⟨reply, rfl, hresp⟩
    · cases he
    rw [respond_serialized hparse hline] at hrespond
    split_ifs at hrespond
    · exact absurd hresp.symm (herror hrespond)
    · simp only [Prog.tryCatch, Option.getD_none, dispatch_list] at hrespond
      cases hkeys : okKeys c.json w.store.list with
      | error e =>
        rw [hkeys] at hrespond
        exact absurd hresp.symm (herror hrespond)
      | ok keys =>
        rw [hkeys] at hrespond
        obtain rfl := Except.ok.inj (Prod.mk.inj hrespond).1
        rw [requestRaw_okKeys hparse hkeys] at hresp
        exact Except.ok.inj hresp

end Secretov
