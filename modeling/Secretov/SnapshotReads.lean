import Secretov.CreateOnly
import Secretov.ExecRuns
import Secretov.Scopes

/-! Reads between the writes of other clients. What `get_many` brings of one scope is
what the store held at one moment. -/

namespace Secretov

variable {S : Sodium} {F : Format S} {c : Channel} {w w' : World F}

/-- No failure to print a reply reads as a missing key. -/
def Nlohmann.DumpErrsApart (json : Nlohmann) : Prop := ∀ j e, json.dump j = .error e → e.what ≠ kErrNotFound

theorem ne_notFound {msg : Bytes} {b : UInt8} (h : msg.head? = some b) (hb : b ≠ 110) : msg ≠ kErrNotFound := by
  rintro rfl
  exact hb (Option.some.inj h).symm

theorem getString_error_what {j : Json} {e : Error} (h : j.getString = .error e) : e.what ≠ kErrNotFound := by
  cases j with
  | string v => cases h
  | null | boolean | number | array | object =>
    obtain rfl := Except.error.inj h
    exact ne_notFound rfl (by decide)

/-- What becomes of a get: the stored value, or an error that tells a missing key. -/
inductive GetReply (json : Nlohmann) (w : World F) (path : Bytes) : Except Error Bytes → Prop
  | found {value : Bytes} (hvalue : w.store.data[path]? = some (.string value)) :
      GetReply json w path (okValue json value)
  | missing (hmissing : path ∉ w.store.data) : GetReply json w path (errorResponse json kErrNotFound)
  | other {msg : Bytes} (hmsg : msg ≠ kErrNotFound) : GetReply json w path (errorResponse json msg)

theorem dispatch_get_reply {json : Nlohmann} (hapart : json.DumpErrsApart) {token path : Bytes} (env : Env S)
    (now : UInt64) {response : Except Error Bytes}
    (h : Prog.tryCatch (dispatch json env ⟨token, text "get", path, [], [], []⟩ now)
      (fun e => Prog.ofExcept (errorResponse json e.what)) w = (response, w')) :
    w' = w ∧ GetReply json w path response := by
  have hprinted (r : Except Error Bytes) (hr : ∀ e, r = .error e → e.what ≠ kErrNotFound)
      (hreply : GetReply json w path r) (h : Prog.tryCatch (Prog.ofExcept r : StoreM F Bytes)
        (fun e => Prog.ofExcept (errorResponse json e.what)) w = (response, w')) :
      w' = w ∧ GetReply json w path response := by
    simp only [Prog.tryCatch, Prog.ofExcept_apply] at h
    cases hresult : r with
    | ok reply =>
      rw [hresult] at h
      obtain ⟨rfl, rfl⟩ := Prod.mk.inj h
      exact ⟨rfl, hresult ▸ hreply⟩
    | error e =>
      rw [hresult] at h
      obtain ⟨rfl, rfl⟩ := Prod.mk.inj h
      exact ⟨rfl, .other (hr e hresult)⟩
  rw [dispatch, if_pos rfl] at h
  split_ifs at h with hpath
  · exact hprinted _ (hapart _) (.other (by decide)) h
  cases hget : w.store.data[path]? with
  | none =>
    have hmissing : w.store.get path = .ok none := by rw [Store.get, hget]
    have hnot : path ∉ w.store.data := by simpa using hget
    refine hprinted (errorResponse json kErrNotFound) (hapart _) (.missing hnot) ?_
    rw [← h]
    simp only [Prog.tryCatch, Prog.bind_apply, Prog.get_apply, Prog.ofExcept_apply, hmissing]
  | some j =>
    have hstored : w.store.get path = j.getString.map some := by rw [Store.get, hget]
    cases hstring : j.getString with
    | ok value =>
      have hvalue : w.store.get path = .ok (some value) := by rw [hstored, hstring]; rfl
      refine hprinted (okValue json value) (hapart _) (.found (Store.get_some hvalue)) ?_
      rw [← h]
      simp only [Prog.tryCatch, Prog.bind_apply, Prog.get_apply, Prog.ofExcept_apply, hvalue]
    | error e =>
      have herror : w.store.get path = .error e := by rw [hstored, hstring]; rfl
      simp only [Prog.tryCatch, Prog.bind_apply, Prog.get_apply, Prog.ofExcept_apply, herror] at h
      obtain ⟨rfl, rfl⟩ := Prod.mk.inj h
      exact ⟨rfl, .other (getString_error_what hstring)⟩

/-- What a caller of a get has of it. -/
inductive GetResult (w : World F) (path : Bytes) (handled : Prop) : Except LocalError Json → Prop
  | found (hhandled : handled) {resp : Json} {value : Bytes}
      (hstored : w.store.data[path]? = some (.string value))
      (hindex : resp.index (text "value") = .string value) : GetResult w path handled (.ok resp)
  | missing (hhandled : handled) (hmissing : path ∉ w.store.data) :
      GetResult w path handled (.error (.backend notFoundError))
  | failed {e : LocalError} (hkind : ∀ b, e = .backend b → b.kind ≠ .notFound) :
      GetResult w path handled (.error e)

theorem GetResult.error {path : Bytes} {handled : Prop} {e : Error} (h : e.what ≠ kErrNotFound) :
    GetResult w path handled (localRequest (.error (.error e))) := by
  cases e with
  | runtimeError msg =>
    have hmsg : msg ≠ kErrNotFound := h
    simp only [localRequest, if_neg hmsg]
    split_ifs
    · refine .failed fun b hb => ?_
      obtain rfl := LocalError.backend.inj hb
      exact Kind.noConfusion
    · exact .failed fun b hb => by cases hb
  | parseError msg | outOfRange msg | typeError msg => exact .failed fun b hb => by cases hb

theorem GetResult.unreachable {path : Bytes} {handled : Prop} (e : DaemonUnreachable) :
    GetResult w path handled (localRequest (.error (.unreachable e))) := by
  refine .failed fun b hb => ?_
  obtain rfl := LocalError.backend.inj hb
  exact Kind.noConfusion

theorem serializeRequest_error {json : Nlohmann} (hapart : json.DumpErrsApart) {token op key : Bytes}
    {value : Option Bytes} {e : Error} (h : serializeRequest json token op key value = .error e) :
    e.what ≠ kErrNotFound := by
  unfold serializeRequest at h
  cases hdump : json.dump (requestObject token op key value) with
  | error e' =>
    rw [hdump] at h
    obtain rfl := Except.error.inj h
    exact hapart _ _ hdump
  | ok line =>
    rw [hdump] at h
    simp only [bind, Except.bind] at h
    split_ifs at h
    · obtain rfl := Except.error.inj h
      exact ne_notFound rfl (by decide)
    · cases h

section

variable (hparse : c.json.ParseUndoesDump) (hapart : c.json.DumpErrsApart)
include hparse hapart

theorem respond_get_reply {path line : Bytes} {turn : Turn S} {response : Except Error Bytes}
    (hline : serializeRequest c.json c.token (text "get") path none = .ok line)
    (hrespond : respond c.json c.expectedToken turn line w = (response, w')) :
    w' = w ∧ GetReply c.json w path response := by
  rw [respond_serialized hparse hline] at hrespond
  split_ifs at hrespond
  · obtain ⟨rfl, rfl⟩ := Prod.mk.inj hrespond
    exact ⟨rfl, .other (by decide)⟩
  · exact dispatch_get_reply hapart turn.env turn.now hrespond

/-- What a get brings, the daemon has answered from what is stored. -/
theorem exchange_get (path : Bytes) (fate : Fate S) (w : World F) :
    GetResult w path ((c.response (text "get") path none fate w).isSome = true)
      (localRequest (c.exchange (text "get") path none fate w).1) := by
  cases fate with
  | notRunning => exact .unreachable _
  | servedByOther daemonUid => exact .error (ne_notFound rfl (by decide))
  | connected delivery =>
    simp only [Channel.exchange, Channel.response]
    cases hline : serializeRequest c.json c.token (text "get") path none with
    | error e => exact .error (serializeRequest_error hapart hline)
    | ok line =>
      cases delivery with
      | sendFails timedOut => exact .unreachable _
      | noReply timedOut handled => cases handled <;> exact .unreachable _
      | replies turn =>
        simp only [Channel.deliver, Option.isSome_some]
        rcases hrespond : respond c.json c.expectedToken turn line w with ⟨e | reply, t⟩
        · exact .unreachable _
        obtain ⟨rfl, hreply⟩ := respond_get_reply hparse hapart hline hrespond
        dsimp only
        split_ifs with hlong
        · exact .unreachable _
        generalize hresponse : (.ok reply : Except Error Bytes) = response at hreply
        cases hreply with
        | found hvalue =>
          rw [requestRaw_okValue hparse hresponse.symm]
          exact .found trivial hvalue rfl
        | missing hmissing =>
          rw [requestRaw_errorResponse hparse hresponse.symm]
          exact .missing trivial hmissing
        | other hmsg =>
          rw [requestRaw_errorResponse hparse hresponse.symm]
          exact .error hmsg

end

theorem getPrefix_strings {store : Store S} {pre : Bytes} {entries : List (Bytes × Bytes)}
    (h : store.getPrefix pre = .ok entries) (key : Bytes) (j : Json) (hpre : pre <+: key)
    (hj : store.data[key]? = some j) : ∃ v, j = .string v := by
  have hanswers : Answers store fun key => store.data[key]? := Store.answers fun _ => rfl
  by_contra hno
  obtain ⟨e, he⟩ := hanswers.getPrefix_error pre key j hpre hj fun v hv => hno ⟨v, hv⟩
  rw [he] at h
  cases h

/-- A request of ours that the daemon has handled between two states. -/
structure Between (s t : Contended F) (own : Handled F) : Prop where
  mine : own.mine = true
  new : ∃ recent, t.log = recent ++ s.log ∧ own ∈ recent

section

variable {s t u : Contended F} {own : Handled F}

theorem Between.mono_right (h : Between s t own) (hlog : t.log <:+ u.log) : Between s u own := by
  obtain ⟨recent, hrecent, hown⟩ := h.new
  obtain ⟨later, hlater⟩ := hlog
  exact ⟨h.mine, later ++ recent, by rw [← hlater, hrecent, List.append_assoc], List.mem_append_right _ hown⟩

theorem Between.mono_left (h : Between t u own) (hlog : s.log <:+ t.log) : Between s u own := by
  obtain ⟨recent, hrecent, hown⟩ := h.new
  obtain ⟨later, hlater⟩ := hlog
  exact ⟨h.mine, recent ++ later, by rw [hrecent, ← hlater, List.append_assoc], List.mem_append_left _ hown⟩

theorem handleOthers_suffix (others : List (Other S)) (met : World F × List (Handled F)) :
    met.2 <:+ (others.foldl c.handleOther met).2 := by
  induction others generalizing met with
  | nil => exact List.suffix_refl _
  | cons other others ih => exact (List.suffix_cons _ _).trans (ih (c.handleOther met other))

theorem contendedLocal_own (op key : Bytes) (s : Contended F) :
    s.log <:+ (c.contendedLocal op key none s).2.log ∧ ∃ w,
      (c.contendedLocal op key none s).1 = localRequest (c.exchange op key none (s.session.fates 0) w).1 ∧
        ((c.response op key none (s.session.fates 0) w).isSome = true →
          ∃ own, Between s (c.contendedLocal op key none s).2 own ∧ own.before = w) := by
  obtain ⟨met, hmet⟩ := handleOthers_suffix (c := c) (s.others 0) (s.session.world, s.log)
  simp only [Channel.contendedLocal, Channel.contendedRequest, Channel.request]
  refine ⟨⟨_, by rw [← hmet, List.append_assoc]⟩, _, rfl, fun hhandled => ?_⟩
  obtain ⟨response, hresponse⟩ := Option.isSome_iff_exists.mp hhandled
  rw [hresponse]
  exact ⟨_, ⟨rfl, _ :: met, by rw [← hmet]; rfl, List.mem_cons_self ..⟩, rfl⟩

end

/-- What each path was found as, at its own moment. -/
def readMoment (moments : Bytes → Handled F) (path : Bytes) : Option Bytes :=
  storedIn (moments path).before.store.data path

theorem record_congr {stored stored' : Bytes → Option Bytes} {path : Bytes} (h : stored path = stored' path)
    (fetched : Fetched) : record stored fetched path = record stored' fetched path := by
  simp only [record, h]

/-- Paths that are read on the way from one state to another, each at a moment. -/
structure Reading (s t : Contended F) (paths : List Bytes) (moments : Bytes → Handled F)
    (fetched fetched' : Fetched) : Prop where
  grows : s.log <:+ t.log
  between : ∀ p ∈ paths, Between s t (moments p)
  strings : ∀ p ∈ paths, ∀ j, (moments p).before.store.data[p]? = some j → ∃ v, j = .string v
  recorded : fetched' = paths.foldl (record (readMoment moments)) fetched

theorem Reading.nil (s : Contended F) (moments : Bytes → Handled F) (fetched : Fetched) :
    Reading s s [] moments fetched fetched :=
  ⟨List.suffix_refl _, nofun, nofun, rfl⟩

theorem Reading.congr {s t : Contended F} {paths : List Bytes} {moments moments' : Bytes → Handled F}
    {fetched fetched' : Fetched} (h : Reading s t paths moments fetched fetched')
    (hsame : ∀ p ∈ paths, moments p = moments' p) : Reading s t paths moments' fetched fetched' := by
  refine ⟨h.grows, fun p hp => hsame p hp ▸ h.between p hp, fun p hp => hsame p hp ▸ h.strings p hp,
    h.recorded.trans ?_⟩
  refine List.foldl_ext _ _ _ fun fetched p hp => record_congr ?_ fetched
  rw [readMoment, readMoment, hsame p hp]

/-- Paths read after others: each keeps its moment. -/
theorem Reading.append {s t u : Contended F} {paths more : List Bytes} {moments moments' : Bytes → Handled F}
    {fetched fetched' fetched'' : Fetched} (h : Reading s t paths moments fetched fetched')
    (h' : Reading t u more moments' fetched' fetched'') (hdisjoint : ∀ p ∈ paths, p ∉ more) :
    Reading s u (paths ++ more) (fun p => if p ∈ more then moments' p else moments p) fetched fetched'' := by
  let merged (p : Bytes) : Handled F := if p ∈ more then moments' p else moments p
  have hfirst : Reading s t paths merged fetched fetched' :=
    h.congr fun p hp => (if_neg (hdisjoint p hp)).symm
  have hsecond : Reading t u more merged fetched' fetched'' := h'.congr fun p hp => (if_pos hp).symm
  refine ⟨h.grows.trans h'.grows, fun p hp => ?_, fun p hp => ?_, ?_⟩
  · rcases List.mem_append.mp hp with hp | hp
    · exact (hfirst.between p hp).mono_right h'.grows
    · exact (hsecond.between p hp).mono_left h.grows
  · rcases List.mem_append.mp hp with hp | hp
    · exact hfirst.strings p hp
    · exact hsecond.strings p hp
  · rw [List.foldl_append, ← hfirst.recorded, ← hsecond.recorded]

section

variable (hparse : c.json.ParseUndoesDump) (hapart : c.json.DumpErrsApart) {s t : Contended F}
  {fetched fetched' : Fetched}
include hparse hapart

theorem fetchPath_reading {path : Bytes} {scope : Scope}
    (h : fetchPath c.contendedLocal false scope fetched path s = (.ok fetched', t)) :
    ∃ own : Handled F, Reading s t [path] (fun _ => own) fetched fetched' := by
  obtain ⟨hgrows, w, hresult, hhandled⟩ := contendedLocal_own (c := c) (text "get") path s
  have hget := exchange_get hparse hapart path (s.session.fates 0) w
  rw [← hresult] at hget
  simp only [fetchPath, fetchValue, Bool.not_false, if_true, Prog.tryCatch, Prog.bind_apply] at h
  rcases hrun : c.contendedLocal (text "get") path none s with ⟨r, t'⟩
  rw [hrun] at h hgrows hhandled hget
  cases hget with
  | @found hown resp value hstored hindex =>
    obtain ⟨own, hbetween, rfl⟩ := hhandled hown
    simp only [hindex, takeString, Prog.ofExcept_apply, Prog.pure_apply] at h
    obtain ⟨hfetched, rfl⟩ := Prod.mk.inj h
    refine ⟨own, hgrows, List.forall_mem_singleton.mpr hbetween, List.forall_mem_singleton.mpr fun j hj =>
      ⟨value, Option.some.inj (hj.symm.trans hstored)⟩, ?_⟩
    have hread : readMoment (fun _ => own) path = some value := storedIn_eq_some.mpr hstored
    simp only [List.foldl_cons, List.foldl_nil, record, hread]
    exact (Except.ok.inj hfetched).symm
  | missing hown hmissing =>
    obtain ⟨own, hbetween, rfl⟩ := hhandled hown
    have hkind : ¬notFoundError.kind ≠ .notFound := not_not_intro rfl
    simp only [if_neg hkind, Prog.pure_apply] at h
    obtain ⟨hfetched, rfl⟩ := Prod.mk.inj h
    have hnone : own.before.store.data[path]? = none := by simpa using hmissing
    refine ⟨own, hgrows, List.forall_mem_singleton.mpr hbetween, List.forall_mem_singleton.mpr fun j hj => ?_, ?_⟩
    · rw [hnone] at hj
      cases hj
    have hread : readMoment (fun _ => own) path = none := by simp [readMoment, storedIn, hmissing]
    simp only [List.foldl_cons, List.foldl_nil, record, hread]
    exact (Except.ok.inj hfetched).symm
  | @failed e hkind =>
    cases e with
    | backend b =>
      simp only [if_pos (hkind b rfl), Prog.throw_apply] at h
      cases (Prod.mk.inj h).1
    | error e => cases (Prod.mk.inj h).1

theorem fetchPaths_reading {paths : List Bytes} (hnodup : paths.Nodup) {scope : Scope}
    (h : paths.foldlM (fetchPath c.contendedLocal false scope) fetched s = (.ok fetched', t)) :
    ∃ moments : Bytes → Handled F, Reading s t paths moments fetched fetched' := by
  induction paths generalizing fetched s with
  | nil =>
    obtain ⟨hfetched, rfl⟩ := Prod.mk.inj h
    obtain rfl := Except.ok.inj hfetched
    exact ⟨fun _ => ⟨false, [], [], false, s.session.world, s.session.world⟩, .nil _ _ _⟩
  | cons path paths ih =>
    obtain ⟨hnot, hrest⟩ := List.nodup_cons.mp hnodup
    rw [List.foldlM_cons] at h
    obtain ⟨middle, u, hfirst, hmore⟩ := Prog.bind_eq_ok.mp h
    obtain ⟨own, hown⟩ := fetchPath_reading hparse hapart hfirst
    obtain ⟨moments, hmoments⟩ := ih hrest hmore
    exact ⟨_, hown.append hmoments (List.forall_mem_singleton.mpr hnot)⟩

omit hapart in
theorem fetchScope_reading {pre : Bytes} (hpre : pre ≠ []) {scope : Scope}
    (h : fetchScope c.contendedLocal pre s = (.ok scope, t)) :
    s.log <:+ t.log ∧ ∃ own : Handled F, Between s t own ∧
      (∀ p j, pre <+: p → own.before.store.data[p]? = some j → ∃ v, j = .string v) ∧
      ∀ p, pre <+: p → scope[p]? = storedIn own.before.store.data p := by
  obtain ⟨hgrows, w, hresult, hhandled⟩ := contendedLocal_own (c := c) (text "getprefix") pre s
  have hexchanged := exchange_exchanged c (text "getprefix") pre none (s.session.fates 0) w
  have hresponse := exchange_response (c := c) (text "getprefix") pre none (s.session.fates 0) w
  obtain ⟨resp, t', hask, hscope⟩ := Prog.bind_eq_ok.mp h
  obtain ⟨hadded, rfl⟩ := Prod.mk.inj hscope
  rw [hask] at hgrows hresult hhandled
  have hok := localRequest_eq_ok hresult.symm
  obtain ⟨entries, hentries, hresp⟩ := (exchange_getPrefix hparse hpre hexchanged).2 resp hok
  have hsome : (c.response (text "getprefix") pre none (s.session.fates 0) w).isSome = true := by
    cases hnone : c.response (text "getprefix") pre none (s.session.fates 0) w with
    | none =>
      rw [hnone] at hresponse
      obtain ⟨e, he⟩ := hresponse
      rw [he] at hok
      cases hok
    | some response => rfl
  obtain ⟨own, hbetween, rfl⟩ := hhandled hsome
  refine ⟨hgrows, own, hbetween, getPrefix_strings hentries, fun p hp => ?_⟩
  have hitems : (resp.index (text "values")).items = entries.map fun v => (v.1, .string v.2) := by
    rw [hresp]
    rfl
  rw [hitems, foldlM_addValue] at hadded
  obtain rfl := Except.ok.inj hadded
  apply Option.ext
  intro v
  have hvalue : ∀ entry ∈ entries, ∀ v, (entry.1, v) ∈ entries ↔ v = entry.2 := by
    intro entry hentry v
    constructor
    · intro hv
      have hstored := ((mem_getPrefix hentries).mp hentry).2
      rw [((mem_getPrefix hentries).mp hv).2] at hstored
      exact Json.string.inj (Option.some.inj hstored)
    · rintro rfl
      exact hentry
  rw [foldl_insertIfNew (P := fun p v => (p, v) ∈ entries) hvalue, storedIn_eq_some]
  constructor
  · exact fun h => ((mem_getPrefix hentries).mp h.2).2
  · intro h
    have hin := (mem_getPrefix hentries).mpr ⟨hp, h⟩
    exact ⟨List.mem_map.mpr ⟨(p, v), hin, rfl⟩, hin⟩

omit hparse hapart in
theorem fetchPath_batched {σ : Type} {ask : Bytes → Bytes → Option Bytes → Prog LocalError σ Json}
    {stored : Bytes → Option Bytes} {scope : Scope} {path : Bytes} (h : scope[path]? = stored path)
    (fetched : Fetched) : fetchPath ask true scope fetched path = pure (record stored fetched path) := by
  funext s
  have hkind : ¬notFoundError.kind ≠ .notFound := not_not_intro rfl
  simp only [fetchPath, fetchValue, Bool.not_true, Bool.false_eq_true, if_false, Prog.tryCatch, record, h]
  cases hstored : stored path with
  | none => simp [Prog.bind_apply, hkind]
  | some value => simp [Prog.bind_apply]

omit hparse hapart in
theorem foldlM_fetchPath_batched {σ : Type} {ask : Bytes → Bytes → Option Bytes → Prog LocalError σ Json}
    {stored : Bytes → Option Bytes} {scope : Scope} {paths : List Bytes}
    (h : ∀ p ∈ paths, scope[p]? = stored p) (fetched : Fetched) :
    paths.foldlM (fetchPath ask true scope) fetched = pure (paths.foldl (record stored) fetched) := by
  induction paths generalizing fetched with
  | nil => rfl
  | cons path paths ih =>
    obtain ⟨hpath, hpaths⟩ := List.forall_mem_cons.mp h
    rw [List.foldlM_cons, fetchPath_batched hpath, List.foldl_cons, ← ih hpaths]
    rfl

/-- A scope of several paths is read at one moment. -/
theorem fetchGroup_reading {group : Bytes × List Bytes} (hnodup : group.2.Nodup)
    (hscope : ∀ p ∈ group.2, scopeOf p = group.1)
    (h : fetchGroup c.contendedLocal fetched group s = (.ok fetched', t)) :
    ∃ moments : Bytes → Handled F, Reading s t group.2 moments fetched fetched' ∧
      (group.1 ≠ [] → ∀ p ∈ group.2, ∀ q ∈ group.2, moments p = moments q) := by
  obtain ⟨pre, paths⟩ := group
  obtain ⟨scope, u, hfetched, hpaths⟩ := Prog.bind_eq_ok.mp h
  dsimp only at hfetched hpaths hnodup hscope ⊢
  by_cases hbatched : pre ≠ [] ∧ paths.length > 1
  · rw [if_pos hbatched] at hfetched
    simp only [decide_eq_true hbatched] at hpaths
    obtain ⟨hgrows, own, hbetween, hstrings, hvalues⟩ := fetchScope_reading hparse hbatched.1 hfetched
    have hunder : ∀ p ∈ paths, pre <+: p := fun p hp => hscope p hp ▸ List.rdropWhile_prefix _ _
    have hread : ∀ p ∈ paths, scope[p]? = readMoment (fun _ => own) p := fun p hp => hvalues p (hunder p hp)
    rw [foldlM_fetchPath_batched hread] at hpaths
    obtain ⟨hrecorded, rfl⟩ := Prod.mk.inj hpaths
    exact ⟨fun _ => own, ⟨hgrows, fun p _ => hbetween, fun p hp j => hstrings p j (hunder p hp),
      (Except.ok.inj hrecorded).symm⟩, fun _ _ _ _ _ => rfl⟩
  · rw [if_neg hbatched] at hfetched
    simp only [decide_eq_false hbatched] at hpaths
    obtain ⟨-, rfl⟩ := Prod.mk.inj hfetched
    obtain ⟨moments, hreading⟩ := fetchPaths_reading hparse hapart hnodup hpaths
    refine ⟨moments, hreading, fun hpre p hp q hq => ?_⟩
    have hshort : ¬paths.length > 1 := fun hlong => hbatched ⟨hpre, hlong⟩
    match paths with
    | [] => cases hp
    | [only] => rw [List.mem_singleton.mp hp, List.mem_singleton.mp hq]
    | _ :: _ :: _ => simp at hshort

/-- Paths of one scope are read at one moment. -/
def OneMomentEach (paths : List Bytes) (moments : Bytes → Handled F) : Prop :=
  ∀ p ∈ paths, ∀ q ∈ paths, scopeOf p = scopeOf q → scopeOf p ≠ [] → moments p = moments q

theorem fetchGroups_reading {groups : List (Bytes × List Bytes)}
    (hdistinct : groups.Pairwise fun a b => a.1 ≠ b.1)
    (hgroups : ∀ g ∈ groups, g.2.Nodup ∧ ∀ p ∈ g.2, scopeOf p = g.1)
    (h : groups.foldlM (fetchGroup c.contendedLocal) fetched s = (.ok fetched', t)) :
    ∃ moments : Bytes → Handled F, Reading s t (groups.flatMap Prod.snd) moments fetched fetched' ∧
      OneMomentEach (groups.flatMap Prod.snd) moments := by
  induction groups generalizing fetched s with
  | nil =>
    obtain ⟨hfetched, rfl⟩ := Prod.mk.inj h
    obtain rfl := Except.ok.inj hfetched
    exact ⟨fun _ => ⟨false, [], [], false, s.session.world, s.session.world⟩, .nil _ _ _, nofun⟩
  | cons group groups ih =>
    obtain ⟨hgroup, hrest⟩ := List.forall_mem_cons.mp hgroups
    obtain ⟨hother, hdistinct⟩ := List.pairwise_cons.mp hdistinct
    rw [List.foldlM_cons] at h
    obtain ⟨middle, u, hfirst, hmore⟩ := Prog.bind_eq_ok.mp h
    obtain ⟨first, hreading, hsame⟩ := fetchGroup_reading hparse hapart hgroup.1 hgroup.2 hfirst
    obtain ⟨moments, hreading', hsame'⟩ := ih hdistinct hrest hmore
    have hscopes : ∀ p ∈ group.2, ∀ q ∈ groups.flatMap Prod.snd, scopeOf p ≠ scopeOf q := by
      intro p hp q hq
      obtain ⟨g, hg, hq⟩ := List.mem_flatMap.mp hq
      rw [hgroup.2 p hp, (hrest g hg).2 q hq]
      exact hother g hg
    have hdisjoint : ∀ p ∈ group.2, p ∉ groups.flatMap Prod.snd := fun p hp hmem => hscopes p hp p hmem rfl
    rw [List.flatMap_cons]
    refine ⟨_, hreading.append hreading' hdisjoint, fun p hp q hq hscope hne => ?_⟩
    rcases List.mem_append.mp hp with hp | hp <;> rcases List.mem_append.mp hq with hq | hq
    · rw [if_neg (hdisjoint p hp), if_neg (hdisjoint q hq)]
      exact hsame (hgroup.2 p hp ▸ hne) p hp q hq
    · exact absurd hscope (hscopes p hp q hq)
    · exact absurd hscope.symm (hscopes q hq p hp)
    · rw [if_pos hp, if_pos hq]
      exact hsame' p hp q hq hscope hne

theorem getMany_reading {paths : List Bytes} (h : getMany c.contendedLocal paths s = (.ok fetched, t)) :
    ∃ moments : Bytes → Handled F, (∀ p ∈ paths, Between s t (moments p)) ∧ OneMomentEach paths moments ∧
      Recorded (readMoment moments) paths fetched ∧
      ∀ p ∈ paths, readMoment moments p = none → p ∉ (moments p).before.store.data := by
  have hgrouped : Grouping.Grouped scopeOf paths (byPrefix paths) := Grouping.groupBy_grouped paths
  have hmem (p : Bytes) : p ∈ (byPrefix paths).toList.flatMap Prod.snd ↔ p ∈ paths := hgrouped.mem_flat p
  have hdistinct : (byPrefix paths).toList.Pairwise fun a b => a.1 ≠ b.1 := by
    refine Std.ExtTreeMap.distinct_keys_toList.imp fun hne heq => hne ?_
    rw [heq]
    exact Std.ReflCmp.compare_self
  obtain ⟨moments, hreading, hsame⟩ := fetchGroups_reading hparse hapart hdistinct
    (fun g hg => ⟨(hgrouped.of_toList hg).1, fun p hp => (((hgrouped.of_toList hg).2 p).mp hp).2⟩) h
  refine ⟨moments, fun p hp => hreading.between p ((hmem p).mpr hp), fun p hp q hq =>
    hsame p ((hmem p).mpr hp) q ((hmem q).mpr hq), ?_, fun p hp hnone hfound => ?_⟩
  · rw [hreading.recorded]
    exact (recorded_foldl _ _).congr hmem
  · obtain ⟨j, hj⟩ := Option.isSome_iff_exists.mp (Std.ExtTreeMap.mem_iff_isSome_getElem?.mp hfound)
    obtain ⟨v, rfl⟩ := hreading.strings p ((hmem p).mpr hp) j hj
    cases hnone.symm.trans (storedIn_eq_some.mpr hj)

/-- Whatever other clients write meanwhile, what is fetched of one scope was stored at
one moment of the fetch, all of it. A path by itself has its own moment. -/
theorem get_many_snapshots {paths : List Bytes} (h : getMany c.contendedLocal paths s = (.ok fetched, t)) :
    ∃ moments : Bytes → Handled F, (∀ p ∈ paths, Between s t (moments p)) ∧
      (∀ p ∈ paths, ∀ q ∈ paths, scopeOf p = scopeOf q → scopeOf p ≠ [] → moments p = moments q) ∧
      (∀ p v, fetched.values[p]? = some v ↔ p ∈ paths ∧ (moments p).before.store.data[p]? = some (.string v)) ∧
      ∀ p, p ∈ fetched.failures ↔ p ∈ paths ∧ p ∉ (moments p).before.store.data := by
  obtain ⟨moments, hbetween, hsame, hrecorded, hmissing⟩ := getMany_reading hparse hapart h
  refine ⟨moments, hbetween, hsame, fun p v => ?_, fun p => ?_⟩
  · rw [hrecorded.values, readMoment, storedIn_eq_some]
  · rw [Std.ExtTreeMap.mem_iff_isSome_getElem?, Option.isSome_iff_exists]
    simp only [hrecorded.failures]
    constructor
    · rintro ⟨e, hp, hnone, -⟩
      exact ⟨hp, hmissing p hp hnone⟩
    · rintro ⟨hp, hnot⟩
      exact ⟨_, hp, by simp [readMoment, storedIn, hnot], rfl⟩

end

/-! One scope of a store, into which another client writes before it is read. -/

def snapshotTable : List (Bytes × Json) :=
  [(braced "\"key\":\"e/p/\",\"op\":\"getprefix\",\"token\":\"t\"",
      requestObject (text "t") (text "getprefix") (text "e/p/") none),
    (braced "\"ok\":true", .object [(text "ok", .boolean true)]),
    (braced ("\"ok\":true,\"values\":" ++ "\x7b\"e/p/A\":\"new\",\"e/p/B\":\"y\"\x7d"),
      .object [(text "ok", .boolean true),
        (text "values", .object [(text "e/p/A", .string (text "new")), (text "e/p/B", .string (text "y"))])]),
    (braced "\"e/p/A\":\"new\",\"e/p/B\":\"y\"",
      .object [(text "e/p/A", .string (text "new")), (text "e/p/B", .string (text "y"))])]

def snapshotChannel : Channel := ⟨tableOf snapshotTable, text "sock", text "t", text "t"⟩

theorem tableOf_dumpErrsApart (table : List (Bytes × Json)) : (tableOf table).DumpErrsApart := by
  intro j e h
  simp only [tableOf] at h
  split at h
  · cases h
  · obtain rfl := Except.error.inj h
    decide

def snapshotStart : Contended (storeFormat taggedBoxes) where
  session := fetchSession
  others n := if n = 0 then [⟨.set (text "e/p/A") (text "new"), sampleTurn⟩] else []
  log := []

theorem get_many_snapshots_sample : ∃ fetched t,
    getMany snapshotChannel.contendedLocal [text "e/p/A", text "e/p/B", text "e/p/C"] snapshotStart =
      (.ok fetched, t) ∧ ∃ own : Handled (storeFormat taggedBoxes), Between snapshotStart t own ∧
        own.before.store.data[text "e/p/A"]? = some (.string (text "new")) ∧
        own.before.store.data[text "e/p/B"]? = some (.string (text "y")) ∧
        text "e/p/C" ∉ own.before.store.data := by
  have hok : ((getMany snapshotChannel.contendedLocal [text "e/p/A", text "e/p/B", text "e/p/C"]
      snapshotStart).1.map fun fetched => (fetched.values.toList, fetched.failures.toList)) =
        .ok ([(text "e/p/A", text "new"), (text "e/p/B", text "y")], [(text "e/p/C", notFoundError)]) := by
    decide +kernel
  rcases hrun : getMany snapshotChannel.contendedLocal [text "e/p/A", text "e/p/B", text "e/p/C"] snapshotStart
    with ⟨e | fetched, t⟩
  · rw [hrun] at hok
    cases hok
  rw [hrun] at hok
  obtain ⟨hvalues, hfailures⟩ := Prod.mk.inj (Except.ok.inj hok)
  obtain ⟨moments, hbetween, hsame, hread, hmissing⟩ :=
    get_many_snapshots (tableOf_parseUndoesDump _) (tableOf_dumpErrsApart _) hrun
  have hvalue {p v : Bytes} (h : (p, v) ∈ fetched.values.toList) := (hread p v).mp
    (Std.ExtTreeMap.mem_toList_iff_getElem?_eq_some.mp h)
  have hfailure : text "e/p/C" ∈ fetched.failures := by
    rw [Std.ExtTreeMap.mem_iff_isSome_getElem?, Option.isSome_iff_exists]
    exact ⟨_, Std.ExtTreeMap.mem_toList_iff_getElem?_eq_some.mp
      (by rw [hfailures]; exact List.mem_singleton_self _)⟩
  have hA := hvalue (p := text "e/p/A") (v := text "new") (by rw [hvalues]; decide)
  have hB := hvalue (p := text "e/p/B") (v := text "y") (by rw [hvalues]; decide)
  have hC := (hmissing (text "e/p/C")).mp hfailure
  have hBA := hsame _ hB.1 _ hA.1 (by decide) (by decide)
  have hCA := hsame _ hC.1 _ hA.1 (by decide) (by decide)
  exact ⟨fetched, t, rfl, moments (text "e/p/A"), hbetween _ hA.1, hA.2, hBA ▸ hB.2, hCA ▸ hC.2⟩

/-! A program is started with it. -/

theorem marked_session {σ : Type} (s : ExecState σ) (injected : List Bytes) :
    (marked s injected).session = s.session := by
  unfold marked
  split_ifs <;> rfl

theorem cmdExec_reading (hparse : c.json.ParseUndoesDump) (hapart : c.json.DumpErrsApart) {yaml : YamlCpp}
    {around : ExecSurroundings} {files : ManifestFiles} {argv : List CString} {program : List Bytes}
    {s s' : ExecState (Contended F)}
    (h : cmdExec c.contendedLocal yaml around files argv s = (.ok (.started program), s')) :
    ∃ args scope fetched t, parseExecArgs noArgs (argv.map CString.bytes) = .ok args ∧
      execScope yaml around files args s.environ = .ok scope ∧ args.program = program ∧ s'.session = t ∧
      getMany c.contendedLocal ((wanted scope args).map Prod.snd) s.session = (.ok fetched, t) ∧
      ∃ moments : Bytes → Handled F,
      (∀ item ∈ wanted scope args, Between s.session t (moments item.2) ∧ readMoment moments item.2 ≠ none) ∧
      OneMomentEach ((wanted scope args).map Prod.snd) moments ∧
      ∀ name, name ≠ kInjectedVar → 0 ∉ name → s'.environ (.of name) =
        ((sourceOf scope args (readMoment moments) name).map CString.of).or (s.environ (.of name)) := by
  obtain ⟨args, scope, fetched, t, hargs, hscope, hprogram, hfetched, hinject⟩ := cmdExec_started h
  obtain ⟨moments, hbetween, hsame, hrecorded, -⟩ := getMany_reading hparse hapart hfetched
  obtain ⟨hfound, environ, hall, rfl⟩ := injectFetched_eq_ok.mp hinject
  have hvalue : ∀ item ∈ wanted scope args,
      readMoment moments item.2 = some (fetched.values[item.2]?.getD []) := by
    intro item hitem
    obtain ⟨v, hv⟩ := Option.isSome_iff_exists.mp (Std.ExtTreeMap.mem_iff_isSome_getElem?.mp (hfound item hitem))
    rw [((hrecorded.values item.2 v).mp hv).2, hv, Option.getD_some]
  refine ⟨args, scope, fetched, t, hargs, hscope, hprogram, marked_session _ _, hfetched, moments,
    fun item hitem => ⟨hbetween item.2 (List.mem_map_of_mem hitem), ?_⟩, hsame, fun name hname hnul => ?_⟩
  · rw [hvalue item hitem]
    exact Option.some_ne_none _
  · rw [environ_marked _ _ hname hnul, (setenvAll_eq_some.mp hall).2]
    dsimp only
    rw [lastOf_asRead (exports_noNul hargs hscope _) hnul, lastOf_exports name _ hvalue]

/-- The environment of a program that exec starts, whatever other clients write
meanwhile: each name by its last source, and what comes of one scope, of one moment. -/
theorem exec_sees_snapshots (hparse : c.json.ParseUndoesDump) (hapart : c.json.DumpErrsApart) {yaml : YamlCpp}
    {around : ExecSurroundings} {files : ManifestFiles} {argv : List CString} {program : List Bytes}
    {s s' : ExecState (Contended F)}
    (h : cmdExec c.contendedLocal yaml around files argv s = (.ok (.started program), s')) :
    ∃ args scope, ∃ moments : Bytes → Handled F, parseExecArgs noArgs (argv.map CString.bytes) = .ok args ∧
      execScope yaml around files args s.environ = .ok scope ∧ args.program = program ∧
      (∀ item ∈ wanted scope args, Between s.session s'.session (moments item.2) ∧
      readMoment moments item.2 ≠ none) ∧ OneMomentEach ((wanted scope args).map Prod.snd) moments ∧
      ∀ name, name ≠ kInjectedVar → 0 ∉ name → s'.environ (.of name) =
        ((sourceOf scope args (readMoment moments) name).map CString.of).or (s.environ (.of name)) := by
  obtain ⟨args, scope, fetched, t, hargs, hscope, hprogram, rfl, -, moments, hread, hsame, henviron⟩ :=
    cmdExec_reading hparse hapart h
  exact ⟨args, scope, moments, hargs, hscope, hprogram, hread, hsame, henviron⟩

/-- `exec --secret e/p/A=X --secret e/p/B=Y -- prog`. -/
def snapshotArgv : List CString :=
  [text "--secret", text "e/p/A=X", text "--secret", text "e/p/B=Y", text "--", text "prog"].map CString.of

def snapshotExec : ExecState (Contended (storeFormat taggedBoxes)) := ⟨snapshotStart, fun _ => none, []⟩

theorem exec_sees_snapshots_sample : ∃ s', cmdExec snapshotChannel.contendedLocal (loadOnly execText execTree)
    execSurroundings execFiles snapshotArgv snapshotExec = (.ok (.started [text "prog"]), s') ∧
      ∃ own : Handled (storeFormat taggedBoxes), Between snapshotStart s'.session own ∧
        s'.environ (.of (text "X")) = (storedIn own.before.store.data (text "e/p/A")).map CString.of ∧
        s'.environ (.of (text "Y")) = (storedIn own.before.store.data (text "e/p/B")).map CString.of := by
  have hok : (cmdExec snapshotChannel.contendedLocal (loadOnly execText execTree) execSurroundings execFiles
      snapshotArgv snapshotExec).1 = .ok (.started [text "prog"]) := by decide +kernel
  obtain ⟨s', hrun⟩ : ∃ s', cmdExec snapshotChannel.contendedLocal (loadOnly execText execTree) execSurroundings
    execFiles snapshotArgv snapshotExec = (.ok (.started [text "prog"]), s') := ⟨_, Prod.ext hok rfl⟩
  refine ⟨s', hrun, ?_⟩
  obtain ⟨args, scope, moments, hargs, hscope, -, hread, hsame, henviron⟩ :=
    exec_sees_snapshots (tableOf_parseUndoesDump _) (tableOf_dumpErrsApart _) hrun
  obtain rfl : args = ⟨none, none, false, [(text "e/p/A", text "X"), (text "e/p/B", text "Y")], [text "prog"]⟩ :=
    Except.ok.inj (hargs.symm.trans (by decide))
  obtain rfl : scope = ⟨⟨.local, []⟩, [], []⟩ := Except.ok.inj (hscope.symm.trans (by decide))
  have hA := hread (text "X", text "e/p/A") (by decide)
  have hBA := hsame (text "e/p/B") (by decide) (text "e/p/A") (by decide) (by decide) (by decide)
  have hsource (stored : Bytes → Option Bytes) (name path : Bytes)
      (hlast : lastOf name [(text "X", text "e/p/A"), (text "Y", text "e/p/B")] = some path) :
      sourceOf ⟨⟨.local, []⟩, [], []⟩ ⟨none, none, false, [(text "e/p/A", text "X"), (text "e/p/B", text "Y")],
        [text "prog"]⟩ stored name = stored path := by
    have htargets : lastOf name (ExecArgs.targets ⟨none, none, false,
      [(text "e/p/A", text "X"), (text "e/p/B", text "Y")], [text "prog"]⟩) = some path := hlast
    rw [sourceOf, htargets]
    exact Option.or_none
  refine ⟨moments (text "e/p/A"), hA.1, ?_, ?_⟩
  · rw [henviron (text "X") (by decide) (by decide), hsource _ _ (text "e/p/A") (by decide)]
    exact Option.or_none
  · rw [henviron (text "Y") (by decide) (by decide), hsource _ _ (text "e/p/B") (by decide), ← hBA]
    exact Option.or_none

end Secretov
