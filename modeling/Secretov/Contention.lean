import Secretov.Exchanges
import Secretov.Lib.History

/-! A client whose requests the daemon handles between those of other clients. -/

namespace Secretov

/-- A request of another client, as the daemon handles it. -/
structure Other (S : Sodium) where
  op : Op
  turn : Turn S

variable {S : Sodium}

/-- A request that the daemon has handled. It acknowledges a write that it makes. -/
structure Handled (F : Format S) where
  mine : Bool
  op : Bytes
  key : Bytes
  acknowledged : Bool
  before : World F
  after : World F

/-- The requests of the others are those that are handled before our next request,
before the one after it, and so on. The log has the latest request first. -/
structure Contended (F : Format S) where
  session : Session F
  others : Nat → List (Other S)
  log : List (Handled F)

variable {F : Format S}

namespace Channel

variable (c : Channel)

def handleOther (s : World F × List (Handled F)) (other : Other S) : World F × List (Handled F) :=
  let op := other.op
  let r := dispatch c.json other.turn.env
      ⟨c.expectedToken, op.name, op.key, op.value.getD [], [], []⟩ other.turn.now s.1
  (r.2, ⟨false, op.name, op.key, decide (r.1 = okResponse c.json), s.1, r.2⟩ :: s.2)

/-- The response to a request of ours, if the daemon handles it. -/
def response (op key : Bytes) (value : Option Bytes) (fate : Fate S) (w : World F) :
    Option (Except Error Bytes) :=
  match fate, serializeRequest c.json c.token op key value with
  | .connected (.replies turn), .ok line => some (respond c.json c.expectedToken turn line w).1
  | .connected (.noReply _ (some turn)), .ok line => some (respond c.json c.expectedToken turn line w).1
  | _, _ => none

def contendedRequest (op key : Bytes) (value : Option Bytes) : Prog ClientError (Contended F) Json := fun s =>
  let met := (s.others 0).foldl c.handleOther (s.session.world, s.log)
  let r := c.request op key value { s.session with world := met.1 }
  let own := (c.response op key value (s.session.fates 0) met.1).toList.map fun response =>
    ⟨true, op, key, decide (response = okResponse c.json), met.1, r.2.world⟩
  (r.1, ⟨r.2, fun n => s.others (n + 1), own ++ met.2⟩)

def contendedLocal (op key : Bytes) (value : Option Bytes) : Prog LocalError (Contended F) Json := fun s =>
  let r := c.contendedRequest op key value s
  (Secretov.localRequest r.1, r.2)

end Channel

/-- Which keys are stored, and what a handled request does to that. -/
def keeping (F : Format S) : Keeping (Handled F) (World F) Bytes where
  present w key := key ∈ w.store.data
  before := Handled.before
  after := Handled.after
  write e :=
    if e.acknowledged = true ∧ e.op = text "set" then some (e.key, true)
    else if e.acknowledged = true ∧ e.op = text "delete" then some (e.key, false)
    else none

/-- It has stored a value under the key. -/
def Handled.Sets (key : Bytes) (e : Handled F) : Prop := e.acknowledged = true ∧ e.op = text "set" ∧ e.key = key

/-- Whatever a set of ours finds under its key, we have stored it ourselves. -/
def ReplacesNothing (log : List (Handled F)) : Prop :=
  ∀ e earlier, e :: earlier <:+ log → e.mine = true → e.Sets e.key → e.key ∈ e.before.store.data →
    ∃ w, Since (¬(keeping F).Writes e.key ·) earlier w ∧ w.mine = true ∧ w.Sets e.key

/-- After our first request, the last write of the key is a set of another client. -/
def SetMeanwhile (key : Bytes) (log : List (Handled F)) : Prop :=
  ∃ recent first old, log = recent ++ first :: old ∧ first.mine = true ∧ (∀ e ∈ old, e.mine = false) ∧
    ∃ w, Since (¬(keeping F).Writes key ·) recent w ∧ w.mine = false ∧ w.Sets key

def Undisturbed (log : List (Handled F)) : Prop :=
  ∀ e earlier, e :: earlier <:+ log → e.mine = true → e.Sets e.key → ¬SetMeanwhile e.key earlier

section

variable {e : Handled F} {key : Bytes}

theorem write_eq_put : (keeping F).write e = some (key, true) ↔ e.Sets key := by
  simp only [keeping, Handled.Sets]
  split_ifs with hset hdelete
  · simp [hset.1, hset.2]
  · simp only [Option.some.injEq, Prod.mk.injEq, Bool.false_eq_true, and_false, false_iff]
    rintro ⟨hack, hop, -⟩
    exact hset ⟨hack, hop⟩
  · simp only [false_iff]
    rintro ⟨hack, hop, -⟩
    exact hset ⟨hack, hop⟩

theorem Handled.Sets.writes (h : e.Sets key) : (keeping F).Writes key e := ⟨true, write_eq_put.mpr h⟩

theorem not_writes_of_op (hset : e.op ≠ text "set") (hdelete : e.op ≠ text "delete") (key : Bytes) :
    ¬(keeping F).Writes key e := by
  rintro ⟨left, hwrite⟩
  simp [keeping, hset, hdelete] at hwrite

end

/-- Our first request has found none of these keys, and what we have set since is one of them. -/
structure Checked (keys : Bytes → Prop) (start : World F) (s : Contended F) : Prop where
  history : (keeping F).History start s.log s.session.world
  first : ∃ recent first old, s.log = recent ++ first :: old ∧ first.mine = true ∧ (∀ e ∈ old, e.mine = false) ∧
    first.op ≠ text "set" ∧ first.op ≠ text "delete" ∧ ∀ key, keys key → key ∉ first.before.store.data
  sets : ∀ e ∈ s.log, e.mine = true → e.op = text "set" → keys e.key

theorem suffix_split {α : Type} {l recent old : List α} (h : l <:+ recent ++ old) :
    l <:+ old ∨ ∃ recent', l = recent' ++ old := by
  obtain ⟨later, h⟩ := h
  rcases List.append_eq_append_iff.mp h with ⟨between, rfl, rfl⟩ | ⟨between, rfl, rfl⟩
  · exact .inr ⟨between, rfl⟩
  · exact .inl ⟨between, rfl⟩

theorem first_unique {recent recent' old old' : List (Handled F)} {first first' : Handled F}
    (h : recent ++ first :: old = recent' ++ first' :: old') (hfirst : first.mine = true)
    (hfirst' : first'.mine = true)
    (hold : ∀ e ∈ old, e.mine = false) (hold' : ∀ e ∈ old', e.mine = false) : recent = recent' := by
  rcases List.append_eq_append_iff.mp h with ⟨between, rfl, hbetween⟩ | ⟨between, rfl, hbetween⟩
  · cases between with
    | nil => simp
    | cons e between =>
      obtain ⟨rfl, rfl⟩ := List.cons.inj hbetween
      have hother := hold first' (by simp)
      rw [hfirst'] at hother
      cases hother
  · cases between with
    | nil => simp
    | cons e between =>
      obtain ⟨rfl, rfl⟩ := List.cons.inj hbetween
      have hother := hold' first (by simp)
      rw [hfirst] at hother
      cases hother

theorem Checked.replacesNothing_iff {keys : Bytes → Prop} {start : World F} {s : Contended F}
    (h : Checked keys start s) : ReplacesNothing s.log ↔ Undisturbed s.log := by
  obtain ⟨recent, first, old, hlog, hmine, hold, hset, hdelete, habsent⟩ := h.first
  refine forall₂_congr fun e earlier => forall₃_congr fun hsuffix hown hsets => ?_
  obtain ⟨recent', rfl⟩ : ∃ recent', earlier = recent' ++ first :: old := by
    rw [hlog] at hsuffix
    rcases suffix_split hsuffix with hsuffix | ⟨recent', hsplit⟩
    · have hmem := hsuffix.subset (List.mem_cons_self ..)
      rcases List.mem_cons.mp hmem with rfl | hmem
      · exact absurd hsets.2.1 hset
      · rw [hold e hmem] at hown
        cases hown
    · cases recent' with
      | nil =>
        obtain ⟨rfl, -⟩ := List.cons.inj hsplit
        exact absurd hsets.2.1 hset
      | cons e' recent' =>
        obtain ⟨rfl, rfl⟩ := List.cons.inj hsplit
        exact ⟨recent', rfl⟩
  have hkey := h.sets e (hsuffix.subset (List.mem_cons_self ..)) hown hsets.2.1
  have hpresent : e.key ∈ e.before.store.data ↔ ∃ w, Since (¬(keeping F).Writes e.key ·) recent' w ∧
      w.Sets e.key := by
    have hsince := (h.history.at_suffix hsuffix).1.present_since (not_writes_of_op hset hdelete)
      (habsent e.key hkey)
    simp only [write_eq_put] at hsince
    exact hsince
  constructor
  · rintro hours ⟨recent, first', old', hsplit, hmine', hold', w, hsince, hother, hw⟩
    obtain rfl := first_unique hsplit hmine hmine' hold hold'
    obtain ⟨w', hsince', hmine, hw'⟩ := hours (hpresent.mpr ⟨w, hsince, hw⟩)
    obtain rfl := (hsince.append _).unique hsince' hw.writes hw'.writes
    rw [hother] at hmine
    cases hmine
  · intro hundisturbed hmem
    obtain ⟨w, hsince, hw⟩ := hpresent.mp hmem
    refine ⟨w, hsince.append _, ?_, hw⟩
    by_contra hother
    exact hundisturbed ⟨recent', first, old, rfl, hmine, hold, w, hsince, by simpa using hother, hw⟩

/-! What the daemon does with one request. -/

section

variable {json : Nlohmann} {env : Env S} {req : Request} {now : UInt64} {w : World F}

theorem errorResponse_ne (hparse : json.ParseUndoesDump) (hok : ∃ r, okResponse json = .ok r) (msg : Bytes) :
    errorResponse json msg ≠ okResponse json := by
  obtain ⟨r, hr⟩ := hok
  intro h
  have herror := hparse _ _ (h.trans hr)
  rw [hparse _ _ hr] at herror
  cases herror

theorem dispatch_keeps_data (hset : req.op ≠ text "set") (hdelete : req.op ≠ text "delete") :
    (dispatch json env req now w).2.store.data = w.store.data := by
  rw [dispatch, if_neg hset, if_neg hdelete]
  split_ifs
  · rfl
  · rw [Prog.bind_get]
    cases w.store.get req.key with
    | error e => rfl
    | ok value =>
      cases value with
      | none => rfl
      | some value => rfl
  · rfl
  · rfl
  · rw [Prog.bind_get]
    cases w.store.getPrefix req.key with
    | error e => rfl
    | ok values => rfl
  · rfl
  · rw [Prog.bind_apply]
    rcases hrotate : Store.rotate json env req.oldPass now w with ⟨e | _, t⟩
    · rw [Store.rotate_error hrotate]
    · exact (congrArg Store.data (Store.rotate_ok hrotate).2.1 : t.store.data = _)
  · rfl
  · rw [Prog.bind_apply]
    rcases hchange : Store.changePassphrase json env req.oldPass req.newPass now w with ⟨e | _, t⟩
    · rw [Store.changePassphrase_error hchange]
    · exact (congrArg Store.data (Store.changePassphrase_ok hchange).2.2.1 : t.store.data = _)
  · rfl

/-- A request that changes no data and is not acknowledged as a write. -/
theorem faithful_of_same {e : Handled F} (hdata : e.after.store.data = e.before.store.data)
    (hquiet : e.acknowledged = true → e.op ≠ text "set" ∧ e.op ≠ text "delete") : (keeping F).Faithful e where
  written key left hwrite := by
    simp only [keeping] at hwrite
    split_ifs at hwrite with hset hdelete
    · exact absurd hset.2 (hquiet hset.1).1
    · exact absurd hdelete.2 (hquiet hdelete.1).2
  others key _ := by
    change key ∈ e.after.store.data ↔ key ∈ e.before.store.data
    rw [hdata]

theorem faithful_of_set {e : Handled F} {value : Json} (hack : e.acknowledged = true) (hop : e.op = text "set")
    (hdata : e.after.store.data = e.before.store.data.insert e.key value) : (keeping F).Faithful e := by
  have hwrite : (keeping F).write e = some (e.key, true) := write_eq_put.mpr ⟨hack, hop, rfl⟩
  have hpresent (key : Bytes) : (keeping F).present ((keeping F).after e) key ↔
      e.key = key ∨ key ∈ e.before.store.data := by
    change key ∈ e.after.store.data ↔ _
    rw [hdata, Std.ExtTreeMap.mem_insert, Std.LawfulEqCmp.compare_eq_iff_eq]
  constructor
  · intro key left h
    obtain ⟨rfl, rfl⟩ := Prod.mk.inj (Option.some.inj (hwrite.symm.trans h))
    simp [hpresent]
  · intro key h
    have hne : e.key ≠ key := by
      rintro rfl
      exact h true hwrite
    rw [hpresent]
    exact or_iff_right hne

theorem faithful_of_delete {e : Handled F} (hack : e.acknowledged = true) (hop : e.op = text "delete")
    (hdata : e.after.store.data = e.before.store.data.erase e.key) : (keeping F).Faithful e := by
  have hwrite : (keeping F).write e = some (e.key, false) := by
    have hother : text "delete" ≠ text "set" := by decide
    simp [keeping, hack, hop, hother]
  have hpresent (key : Bytes) : (keeping F).present ((keeping F).after e) key ↔
      e.key ≠ key ∧ key ∈ e.before.store.data := by
    change key ∈ e.after.store.data ↔ _
    rw [hdata, Std.ExtTreeMap.mem_erase, Ne, Std.LawfulEqCmp.compare_eq_iff_eq]
  constructor
  · intro key left h
    obtain ⟨rfl, rfl⟩ := Prod.mk.inj (Option.some.inj (hwrite.symm.trans h))
    simp [hpresent]
  · intro key h
    have hne : e.key ≠ key := by
      rintro rfl
      exact h false hwrite
    rw [hpresent]
    exact and_iff_right hne

variable {token op key value : Bytes}

theorem dispatch_faithful (hparse : json.ParseUndoesDump) (hok : ∃ r, okResponse json = .ok r) (mine : Bool) :
    (keeping F).Faithful ⟨mine, op, key,
      decide ((dispatch json env ⟨token, op, key, value, [], []⟩ now w).1 = okResponse json), w,
      (dispatch json env ⟨token, op, key, value, [], []⟩ now w).2⟩ := by
  have herror (msg : Bytes) := errorResponse_ne hparse hok msg
  by_cases hset : op = text "set"
  · subst hset
    rw [dispatch_set]
    split_ifs with hkey
    · exact faithful_of_same rfl fun hack => absurd (of_decide_eq_true hack) (herror _)
    · rw [Prog.bind_apply]
      rcases hstore : Store.set json env key value w with ⟨e | _, t⟩
      · obtain rfl := Store.set_error hstore
        refine faithful_of_same rfl fun hack => ?_
        obtain ⟨r, hr⟩ := hok
        cases (of_decide_eq_true hack).trans hr
      · exact faithful_of_set (decide_eq_true rfl) rfl (congrArg Store.data (Store.set_ok hstore).1)
  by_cases hdelete : op = text "delete"
  · subst hdelete
    rw [dispatch_delete]
    split_ifs with hkey
    · exact faithful_of_same rfl fun hack => absurd (of_decide_eq_true hack) (herror _)
    · rw [Prog.bind_apply]
      rcases hremove : Store.remove json env key w with ⟨e | removed, t⟩
      · obtain rfl := Store.remove_error hremove
        refine faithful_of_same rfl fun hack => ?_
        obtain ⟨r, hr⟩ := hok
        cases (of_decide_eq_true hack).trans hr
      · rcases Store.remove_ok hremove with ⟨rfl, -, rfl⟩ | ⟨rfl, -, hstore, -⟩
        · exact faithful_of_same rfl fun hack => absurd (of_decide_eq_true hack) (herror _)
        · exact faithful_of_delete (decide_eq_true rfl) rfl (congrArg Store.data hstore)
  · exact faithful_of_same (dispatch_keeps_data hset hdelete) fun _ => ⟨hset, hdelete⟩

theorem respond_faithful (hparse : json.ParseUndoesDump) (hok : ∃ r, okResponse json = .ok r) (mine : Bool)
    {expectedToken line : Bytes} {value : Option Bytes} {turn : Turn S} {response : Except Error Bytes}
    {w' : World F} (hline : serializeRequest json token op key value = .ok line)
    (hrespond : respond json expectedToken turn line w = (response, w')) :
    (keeping F).Faithful ⟨mine, op, key, decide (response = okResponse json), w, w'⟩ := by
  have herror (msg : Bytes) := errorResponse_ne hparse hok msg
  obtain rfl : (respond json expectedToken turn line w).1 = response := congrArg Prod.fst hrespond
  obtain rfl : (respond json expectedToken turn line w).2 = w' := congrArg Prod.snd hrespond
  rw [respond_serialized hparse hline]
  split_ifs
  · exact faithful_of_same rfl fun hack => absurd (of_decide_eq_true hack) (herror _)
  · have hdispatch := @dispatch_faithful S F json turn.env turn.now w token op key (value.getD []) hparse hok mine
    unfold Prog.tryCatch
    rcases hd : dispatch json turn.env ⟨token, op, key, value.getD [], [], []⟩ turn.now w with ⟨e | reply, t⟩
    · obtain rfl := dispatch_error hok hd
      exact faithful_of_same rfl fun hack => absurd (of_decide_eq_true hack) (herror _)
    · rw [hd] at hdispatch
      exact hdispatch

end

/-! What a request of ours adds to the log. -/

section

variable {c : Channel} {start : World F}

theorem handleOthers_log (hparse : c.json.ParseUndoesDump) (hok : ∃ r, okResponse c.json = .ok r)
    (others : List (Other S)) {w : World F} {log : List (Handled F)} (h : (keeping F).History start log w) :
    (keeping F).History start (others.foldl c.handleOther (w, log)).2 (others.foldl c.handleOther (w, log)).1 ∧
      ∃ met, (others.foldl c.handleOther (w, log)).2 = met ++ log ∧ ∀ e ∈ met, e.mine = false := by
  induction others generalizing w log with
  | nil => exact ⟨h, [], rfl, nofun⟩
  | cons other others ih =>
    rw [List.foldl_cons]
    have hnext : (keeping F).History start (c.handleOther (w, log) other).2 (c.handleOther (w, log) other).1 :=
      .cons _ h (dispatch_faithful hparse hok false)
    obtain ⟨hhistory, met, hlog, hmet⟩ := ih hnext
    refine ⟨hhistory, met ++ [_], hlog.trans (by rw [List.append_assoc]; rfl), fun e he => ?_⟩
    rcases List.mem_append.mp he with he | he
    · exact hmet e he
    · rw [List.mem_singleton.mp he]

variable {op key : Bytes} {value : Option Bytes}

theorem exchange_response (op key : Bytes) (value : Option Bytes) (fate : Fate S) (w : World F) :
    match c.response op key value fate w with
    | none => ∃ e, c.exchange op key value fate w = (.error e, w)
    | some response => ∃ line turn, serializeRequest c.json c.token op key value = .ok line ∧
        respond c.json c.expectedToken turn line w = (response, (c.exchange op key value fate w).2) := by
  unfold Channel.response Channel.exchange
  cases hline : serializeRequest c.json c.token op key value with
  | error e =>
    cases fate with
    | notRunning | servedByOther daemonUid => exact ⟨_, rfl⟩
    | connected delivery =>
      match delivery with
      | .sendFails timedOut | .noReply timedOut none | .noReply timedOut (some turn) | .replies turn =>
          exact ⟨_, rfl⟩
  | ok line =>
    cases fate with
    | notRunning | servedByOther daemonUid => exact ⟨_, rfl⟩
    | connected delivery =>
      match delivery with
      | .sendFails timedOut | .noReply timedOut none => exact ⟨_, rfl⟩
      | .noReply timedOut (some turn) => exact ⟨line, turn, rfl, rfl⟩
      | .replies turn =>
        refine ⟨line, turn, rfl, ?_⟩
        simp only [Channel.deliver]
        rcases respond c.json c.expectedToken turn line w with ⟨e | reply, w'⟩
        · rfl
        · dsimp only
          split_ifs
          · rfl
          · rfl

/-- What a request of ours finds and leaves: others may have come first, and it is
logged if it is handled. -/
structure Asked (c : Channel) (op key : Bytes) (value : Option Bytes) (start : World F) (log : List (Handled F))
    (r : Except ClientError Json) (t : Contended F) : Prop where
  history : (keeping F).History start t.log t.session.world
  logged : ∃ met, (∀ e ∈ met, e.mine = false) ∧
    ((∃ e, r = .error e) ∧ t.log = met ++ log ∨ ∃ own, t.log = own :: (met ++ log) ∧ own.mine = true ∧
      own.op = op ∧ own.key = key ∧ Exchanged c op key value own.before r own.after)

theorem contendedRequest_asked (hparse : c.json.ParseUndoesDump) (hok : ∃ r, okResponse c.json = .ok r)
    (op key : Bytes) (value : Option Bytes) {s : Contended F}
    (h : (keeping F).History start s.log s.session.world) :
    Asked c op key value start s.log (c.contendedRequest op key value s).1
    (c.contendedRequest op key value s).2 := by
  obtain ⟨hhistory, met, hlog, hmet⟩ := handleOthers_log (c := c) hparse hok (s.others 0) h
  unfold Channel.contendedRequest
  generalize (s.others 0).foldl c.handleOther (s.session.world, s.log) = found at hhistory hlog ⊢
  obtain ⟨w, log⟩ := found
  obtain rfl : log = met ++ s.log := hlog
  have hresponse := exchange_response (c := c) op key value (s.session.fates 0) w
  have hexchanged := exchange_exchanged c op key value (s.session.fates 0) w
  simp only [Channel.request]
  cases hhandled : c.response op key value (s.session.fates 0) w with
  | none =>
    rw [hhandled] at hresponse
    obtain ⟨e, he⟩ := hresponse
    rw [he]
    exact ⟨hhistory, met, hmet, .inl ⟨⟨e, rfl⟩, rfl⟩⟩
  | some response =>
    rw [hhandled] at hresponse
    obtain ⟨line, turn, hline, hrespond⟩ := hresponse
    exact ⟨.cons _ hhistory (respond_faithful hparse hok true hline hrespond), met, hmet,
      .inr ⟨_, rfl, rfl, rfl, rfl, hexchanged⟩⟩

variable {keys : Bytes → Prop} {s t : Contended F} {r : Except ClientError Json}

/-- A first request that looks at the store. -/
theorem Asked.checked (h : Asked c op key value start [] r t) (hset : op ≠ text "set")
    (hdelete : op ≠ text "delete") {j : Json} (hr : r = .ok j)
    (habsent : ∀ w w' : World F, Exchanged c op key value w (.ok j) w' → ∀ key, keys key → key ∉ w.store.data) :
    Checked keys start t := by
  subst hr
  obtain ⟨met, hmet, ⟨⟨e, he⟩, -⟩ | ⟨own, hlog, hmine, hop, -, hexchanged⟩⟩ := h.logged
  · cases he
  · rw [List.append_nil] at hlog
    refine ⟨h.history, ⟨[], own, met, hlog, hmine, hmet, ?_, ?_, habsent _ _ hexchanged⟩,
      fun e he hown hsets => ?_⟩
    · rwa [hop]
    · rwa [hop]
    · rw [hlog] at he
      rcases List.mem_cons.mp he with rfl | he
      · exact absurd (hop.symm.trans hsets) hset
      · rw [hmet e he] at hown
        cases hown

/-- A later request of ours, for one of the keys if it is a set. -/
theorem Checked.asked (h : Checked keys start s) (hasked : Asked c op key value start s.log r t)
    (hkey : op = text "set" → keys key) : Checked keys start t := by
  obtain ⟨recent, first, old, hlog, hfirst⟩ := h.first
  obtain ⟨met, hmet, ⟨-, hlog'⟩ | ⟨own, hlog', hmine, hop, hsame, -⟩⟩ := hasked.logged
  · refine ⟨hasked.history, ⟨met ++ recent, first, old, ?_, hfirst⟩, fun e he hown hsets => ?_⟩
    · rw [hlog', hlog, List.append_assoc]
    · rw [hlog'] at he
      rcases List.mem_append.mp he with he | he
      · rw [hmet e he] at hown
        cases hown
      · exact h.sets e he hown hsets
  · refine ⟨hasked.history, ⟨own :: (met ++ recent), first, old, ?_, hfirst⟩, fun e he hown hsets => ?_⟩
    · rw [hlog', hlog, List.cons_append, List.append_assoc]
    · rw [hlog'] at he
      rcases List.mem_cons.mp he with rfl | he
      · rw [hsame]
        exact hkey (hop.symm.trans hsets)
      rcases List.mem_append.mp he with he | he
      · rw [hmet e he] at hown
        cases hown
      · exact h.sets e he hown hsets

/-- Nothing of ours is replaced where nothing of ours is set. -/
theorem replacesNothing_iff_of_unset {log : List (Handled F)} (h : ∀ e ∈ log, e.mine = true → e.op ≠ text "set") :
    ReplacesNothing log ↔ Undisturbed log := by
  refine forall₂_congr fun e earlier => forall₃_congr fun hsuffix hown hsets => ?_
  exact absurd hsets.2.1 (h e (hsuffix.subset (List.mem_cons_self ..)) hown)

theorem Asked.unset {log : List (Handled F)} (h : Asked c op key value start log r t) (hop : op ≠ text "set")
    (hlog : ∀ e ∈ log, e.mine = true → e.op ≠ text "set") : ∀ e ∈ t.log, e.mine = true → e.op ≠ text "set" := by
  obtain ⟨met, hmet, hlogged⟩ := h.logged
  have hrest : ∀ e ∈ met ++ log, e.mine = true → e.op ≠ text "set" := by
    intro e he hown
    rcases List.mem_append.mp he with he | he
    · rw [hmet e he] at hown
      cases hown
    · exact hlog e he hown
  rcases hlogged with ⟨-, hlog'⟩ | ⟨own, hlog', -, hown, -⟩
  · rwa [hlog']
  · rw [hlog']
    refine List.forall_mem_cons.mpr ⟨fun _ => ?_, hrest⟩
    rwa [hown]

end

end Secretov
