import Secretov.ClientDaemon
import Secretov.StoreSteps
import Secretov.Requests

/-! What the daemon makes of the line of a call, and what the client makes of
the reply to it. -/

namespace Secretov

section

variable {S : Sodium} {F : Format S} {json : Nlohmann}

/-- What a call that takes effect does to the map, and the reply it gets. -/
def Applied (w w' : World F) (reply : Json) : Op → Prop
  | .get key => w' = w ∧ ∃ v, w.store.data[key]? = some (.string v) ∧
      reply.find? (text "value") = some (.string v)
  | .set key value => w'.store.data = w.store.data.insert key (.string value)
  | .delete key => key ∈ w.store.data ∧ w'.store.data = w.store.data.erase key

theorem serialize_ok {token line : Bytes} {op : Op} (h : serialize json token op = .ok line) :
    json.dump (makeRequest token op) = .ok line :=
  dump_of_serializeRequest ((serialize_eq json token op).symm.trans h)

theorem parseRequest_serialize (hparse : json.ParseUndoesDump) {token line : Bytes} {op : Op}
    (h : serialize json token op = .ok line) :
    parseRequest json line = .ok (some ⟨token, op.name, op.key, op.value.getD [], [], []⟩) :=
  parseRequest_serializeRequest hparse ((serialize_eq json token op).symm.trans h)

theorem requestRaw_errorResponse (hparse : json.ParseUndoesDump) {msg r : Bytes}
    (h : errorResponse json msg = .ok r) : requestRaw json r = .error (.error (.runtimeError msg)) := by
  have hline := hparse _ _ h
  simp only [requestRaw, hline]
  rfl

theorem requestRaw_okResponse (hparse : json.ParseUndoesDump) {r : Bytes} (h : okResponse json = .ok r) :
    requestRaw json r = .ok (.object [(text "ok", .boolean true)]) := by
  have hline := hparse _ _ h
  simp only [requestRaw, hline]
  rfl

theorem requestRaw_okValue (hparse : json.ParseUndoesDump) {value r : Bytes} (h : okValue json value = .ok r) :
    requestRaw json r = .ok (.object [(text "ok", .boolean true), (text "value", .string value)]) := by
  have hline := hparse _ _ h
  simp only [requestRaw, hline]
  rfl

theorem requestRaw_okValues (hparse : json.ParseUndoesDump) {values : List (Bytes × Bytes)} {r : Bytes}
    (h : okValues json values = .ok r) : requestRaw json r = .ok (.object [(text "ok", .boolean true),
      (text "values", .object (values.map fun v => (v.1, .string v.2)))]) := by
  have hline := hparse _ _ h
  simp only [requestRaw, hline]
  rfl

/-- What one reply line tells the caller of `op`, if answering it took the world
from `w` to `w'`. -/
def Truthful (json : Nlohmann) (w w' : World F) (op : Op) (r : Bytes) : Prop :=
  newline ∉ r ∧
    ((∃ reply, requestRaw json r = .ok reply ∧ Applied w w' reply op) ∨
      (w' = w ∧ ∃ e, requestRaw json r = .error (.error e)))

theorem truthful_errorResponse (hparse : json.ParseUndoesDump) (hline : json.DumpsOneLine) {w w' : World F}
    {op : Op} {msg r : Bytes}
    (h : (Prog.ofExcept (errorResponse json msg) : StoreM F Bytes) w = (.ok r, w')) :
    Truthful json w w' op r := by
  simp only [Prog.ofExcept_apply, Prod.mk.injEq] at h
  exact ⟨hline _ _ h.1, Or.inr ⟨h.2.symm, _, requestRaw_errorResponse hparse h.1⟩⟩

variable {env : Env S} {now : UInt64} {w w' : World F} {token r : Bytes}

theorem Store.get_some {store : Store S} {key value : Bytes} (h : store.get key = .ok (some value)) :
    store.data[key]? = some (.string value) := by
  unfold Store.get at h
  split at h
  · simp at h
  · rename_i j hj
    cases j with
    | string v =>
      simp only [Json.getString, Except.map, Except.ok.injEq, Option.some.injEq] at h
      rw [hj, h]
    | null | boolean | number | array | object => simp [Json.getString, Except.map] at h

theorem dispatch_op (op : Op) :
    (dispatch json env ⟨token, op.name, op.key, op.value.getD [], [], []⟩ now : StoreM F Bytes) =
      if op.key = [] then Prog.ofExcept (errorResponse json (text "missing key"))
      else match op with
        | .get key => do
          match ← Prog.ofExcept ((← Prog.get).store.get key) with
          | none => Prog.ofExcept (errorResponse json kErrNotFound)
          | some value => Prog.ofExcept (okValue json value)
        | .set key value => do
          Store.set json env key value
          Prog.ofExcept (okResponse json)
        | .delete key => (do
          if ← Store.remove json env key then Prog.ofExcept (okResponse json)
          else Prog.ofExcept (errorResponse json kErrNotFound)) := by
  have hset : text "set" ≠ text "get" := by decide
  have hdelete : text "delete" ≠ text "get" ∧ text "delete" ≠ text "set" := by decide
  cases op with
  | get key =>
    rw [dispatch]
    rfl
  | set key value =>
    simp only [dispatch, Op.name, Op.key, Op.value, Option.getD_some, hset, if_true, if_false]
  | delete key => simp only [dispatch, Op.name, Op.key, hdelete.1, hdelete.2, if_true, if_false]

theorem dispatch_getPrefix {pre : Bytes} (hpre : pre ≠ []) :
    dispatch json env ⟨token, text "getprefix", pre, [], [], []⟩ now w =
      (w.store.getPrefix pre >>= okValues json, w) := by
  have hother : text "getprefix" ≠ text "get" ∧ text "getprefix" ≠ text "set" ∧ text "getprefix" ≠ text "delete" ∧
      text "getprefix" ≠ text "list" := by decide
  rw [dispatch, if_neg hother.1, if_neg hother.2.1, if_neg hother.2.2.1, if_neg hother.2.2.2, if_pos rfl,
    if_neg hpre]
  cases hentries : w.store.getPrefix pre with
  | ok entries | error e => simp only [Prog.get_apply, Prog.ofExcept_apply, hentries, bind, Except.bind]

theorem dispatch_call (hparse : json.ParseUndoesDump) (hline : json.DumpsOneLine) {op : Op}
    (h : dispatch json env ⟨token, op.name, op.key, op.value.getD [], [], []⟩ now w = (.ok r, w')) :
    Truthful json w w' op r := by
  rw [dispatch_op] at h
  split_ifs at h with hkey
  · exact truthful_errorResponse hparse hline h
  cases op with
  | get key =>
    obtain ⟨value, hget, h⟩ := Prog.bind_ofExcept_eq_ok.mp (Prog.bind_get.symm.trans h)
    cases value with
    | none => exact truthful_errorResponse hparse hline h
    | some value =>
      obtain ⟨hr, rfl⟩ := Prod.mk.inj h
      exact ⟨hline _ _ hr, Or.inl ⟨_, requestRaw_okValue hparse hr, rfl, value, Store.get_some hget, rfl⟩⟩
  | set key value =>
    obtain ⟨_, t, hset, h⟩ := Prog.bind_eq_ok.mp h
    obtain ⟨hstore, -⟩ := Store.set_ok hset
    obtain ⟨hr, rfl⟩ := Prod.mk.inj h
    exact ⟨hline _ _ hr, Or.inl ⟨_, requestRaw_okResponse hparse hr, congrArg Store.data hstore⟩⟩
  | delete key =>
    obtain ⟨removed, t, hremove, hreply⟩ := Prog.bind_eq_ok.mp h
    rcases Store.remove_ok hremove with ⟨rfl, -, rfl⟩ | ⟨rfl, hmem, hstore, -⟩
    · exact truthful_errorResponse hparse hline hreply
    · obtain ⟨hr, rfl⟩ := Prod.mk.inj hreply
      exact ⟨hline _ _ hr, Or.inl ⟨_, requestRaw_okResponse hparse hr, hmem, congrArg Store.data hstore⟩⟩

/-- What the daemon does with the line of a call. Where no reply comes of it,
nothing has happened. -/
theorem respond_call (hparse : json.ParseUndoesDump) (hline : json.DumpsOneLine)
    (hok : ∃ r, okResponse json = .ok r) {expectedToken line : Bytes} {turn : Turn S} {op : Op}
    {response : Except Error Bytes} (hserialize : serialize json token op = .ok line)
    (hrespond : respond json expectedToken turn line w = (response, w')) :
    (∃ r, response = .ok r ∧ Truthful json w w' op r) ∨ ((∃ e, response = .error e) ∧ w' = w) := by
  have h : (if !tokenMatches expectedToken token then Prog.ofExcept (errorResponse json kErrInvalidToken)
      else Prog.tryCatch (dispatch json turn.env ⟨token, op.name, op.key, op.value.getD [], [], []⟩ turn.now)
        fun e => Prog.ofExcept (errorResponse json e.what)) w = (response, w') := by
    rw [← hrespond, respond, parseRequest_serialize hparse hserialize]
    rfl
  have herror : ∀ {w msg}, (Prog.ofExcept (errorResponse json msg) : StoreM F Bytes) w = (response, w') →
      (∃ r, response = .ok r ∧ Truthful json w w' op r) ∨ ((∃ e, response = .error e) ∧ w' = w) := by
    intro w msg h
    cases response with
    | ok r => exact Or.inl ⟨r, rfl, truthful_errorResponse hparse hline h⟩
    | error e => exact Or.inr ⟨⟨e, rfl⟩, (Prod.mk.inj h).2.symm⟩
  split_ifs at h with htoken
  · exact herror h
  · unfold Prog.tryCatch at h
    rcases hd : dispatch json turn.env ⟨token, op.name, op.key, op.value.getD [], [], []⟩
      turn.now w with ⟨e | r, t⟩
    · rw [hd] at h
      obtain rfl := dispatch_error hok hd
      exact herror h
    · rw [hd] at h
      obtain ⟨rfl, rfl⟩ := Prod.mk.inj h
      exact Or.inl ⟨r, rfl, dispatch_call hparse hline hd⟩

end

end Secretov
