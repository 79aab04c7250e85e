import Secretov.Backend
import Secretov.ClientRequests
import Secretov.Lib.Yields
import Secretov.StoreRefinement

/-! What `get_many` fetches, if every reply reaches the client: the stored values,
by whichever requests. -/

namespace Secretov

/-! One path after another is recorded as stored or as missing. -/

section

variable (stored : Bytes → Option Bytes)

def record (fetched : Fetched) (path : Bytes) : Fetched :=
  match stored path with
  | some value => { fetched with values := fetched.values.insertIfNew path value }
  | none => { fetched with failures := fetched.failures.insertIfNew path notFoundError }

structure Recorded (paths : List Bytes) (fetched : Fetched) : Prop where
  values : ∀ p v, fetched.values[p]? = some v ↔ p ∈ paths ∧ stored p = some v
  failures : ∀ p e, fetched.failures[p]? = some e ↔ p ∈ paths ∧ stored p = none ∧ e = notFoundError

variable {stored} {paths : List Bytes} {fetched : Fetched}

/-- A new entry of a map that so far holds what `P` says of the listed keys. -/
theorem getElem?_insertIfNew_iff {β : Type} {map : Std.ExtTreeMap Bytes β compare} {P : Bytes → β → Prop}
    (h : ∀ p v, map[p]? = some v ↔ p ∈ paths ∧ P p v) {path : Bytes} {value : β} (hP : ∀ v, P path v ↔ v = value)
    (p : Bytes) (v : β) : (map.insertIfNew path value)[p]? = some v ↔ p ∈ paths ++ [path] ∧ P p v := by
  rw [Std.ExtTreeMap.getElem?_insertIfNew, List.mem_append, List.mem_singleton]
  by_cases hp : path = p
  · subst hp
    split_ifs with hnew
    · simp [hP, eq_comm]
    · have hmem : path ∈ map := by simpa using hnew
      obtain ⟨v', hv'⟩ := Option.isSome_iff_exists.mp (Std.ExtTreeMap.mem_iff_isSome_getElem?.mp hmem)
      obtain ⟨hpath, -⟩ := (h path v').mp hv'
      simp [h, hpath]
  · have hcompare : ¬compare path p = .eq := mt Std.LawfulEqCmp.eq_of_compare hp
    rw [if_neg fun hc => hcompare hc.1, h]
    simp [Ne.symm hp]

/-- A map without a new entry, if `P` holds of nothing at the new key. -/
theorem getElem?_append_iff {β : Type} {map : Std.ExtTreeMap Bytes β compare} {P : Bytes → β → Prop}
    (h : ∀ p v, map[p]? = some v ↔ p ∈ paths ∧ P p v) {path : Bytes} (hP : ∀ v, ¬P path v)
    (p : Bytes) (v : β) : map[p]? = some v ↔ p ∈ paths ++ [path] ∧ P p v := by
  rw [h, List.mem_append, List.mem_singleton]
  constructor
  · rintro ⟨hp, hv⟩
    exact ⟨.inl hp, hv⟩
  · rintro ⟨hp | rfl, hv⟩
    · exact ⟨hp, hv⟩
    · exact absurd hv (hP v)

theorem Recorded.add (h : Recorded stored paths fetched) (path : Bytes) :
    Recorded stored (paths ++ [path]) (record stored fetched path) := by
  unfold record
  cases hstored : stored path with
  | none =>
    exact ⟨getElem?_append_iff h.values (by simp [hstored]),
      getElem?_insertIfNew_iff h.failures (by simp [hstored])⟩
  | some value =>
    exact ⟨getElem?_insertIfNew_iff h.values (by simp [hstored, eq_comm]),
      getElem?_append_iff h.failures (by simp [hstored])⟩

theorem recorded_foldl (stored : Bytes → Option Bytes) (paths : List Bytes) :
    Recorded stored paths (paths.foldl (record stored) ⟨∅, ∅⟩) := by
  induction paths using List.reverseRecOn with
  | nil => exact ⟨by simp, by simp⟩
  | append_singleton paths path ih =>
    rw [List.foldl_append]
    exact ih.add path

theorem Recorded.congr {paths' : List Bytes} (h : Recorded stored paths fetched)
    (hmem : ∀ p, p ∈ paths ↔ p ∈ paths') : Recorded stored paths' fetched :=
  ⟨fun p v => by rw [h.values, hmem], fun p e => by rw [h.failures, hmem]⟩

theorem Recorded.mem (h : Recorded stored paths fetched) (p : Bytes) :
    p ∈ fetched.values ∨ p ∈ fetched.failures ↔ p ∈ paths := by
  rw [Std.ExtTreeMap.mem_iff_isSome_getElem?, Std.ExtTreeMap.mem_iff_isSome_getElem?, Option.isSome_iff_exists,
    Option.isSome_iff_exists]
  simp only [h.values, h.failures]
  constructor
  · rintro (⟨v, hp, -⟩ | ⟨e, hp, -⟩)
    · exact hp
    · exact hp
  · intro hp
    cases hstored : stored p with
    | some v => exact .inl ⟨v, hp, rfl⟩
    | none => exact .inr ⟨notFoundError, hp, rfl, rfl⟩

theorem Recorded.disjoint (h : Recorded stored paths fetched) (p : Bytes) :
    ¬(p ∈ fetched.values ∧ p ∈ fetched.failures) := by
  rw [Std.ExtTreeMap.mem_iff_isSome_getElem?, Std.ExtTreeMap.mem_iff_isSome_getElem?, Option.isSome_iff_exists,
    Option.isSome_iff_exists]
  rintro ⟨⟨v, hv⟩, e, he⟩
  have hstored := ((h.values p v).mp hv).2
  have hmissing := ((h.failures p e).mp he).2.1
  rw [hstored] at hmissing
  cases hmissing

theorem Recorded.eq_of_mem {paths' : List Bytes} {fetched' : Fetched} (h : Recorded stored paths fetched)
    (h' : Recorded stored paths' fetched') (hmem : ∀ p, p ∈ paths ↔ p ∈ paths') : fetched = fetched' := by
  obtain ⟨values, failures⟩ := fetched
  obtain ⟨values', failures'⟩ := fetched'
  congr 1
  · apply Std.ExtTreeMap.ext_getElem?
    intro p
    apply Option.ext
    intro v
    rw [h.values, h'.values, hmem]
  · apply Std.ExtTreeMap.ext_getElem?
    intro p
    apply Option.ext
    intro e
    rw [h.failures, h'.failures, hmem]

end

/-! One request for reading, and the daemon's answer to it. -/

def storedIn (data : Data) (path : Bytes) : Option Bytes :=
  match data[path]? with
  | some (.string value) => some value
  | _ => none

/-- The content of a store of strings. -/
def HoldsStrings (data : Data) : Prop :=
  ∀ (key : Bytes) (j : Json), data[key]? = some j → ∃ v, j = .string v

section

variable {S : Sodium} {F : Format S} (c : Channel)

/-- The line of the request is made, and so is the reply, each within its limit. -/
def Channel.Reaches (w : World F) (op key : Bytes) : Prop :=
  (∃ line, serializeRequest c.json c.token op key none = .ok line) ∧
    ∀ turn : Turn S, ∃ reply, (dispatch c.json turn.env ⟨c.token, op, key, [], [], []⟩ turn.now w).1 = .ok reply ∧
      reply.length ≤ kMaxResponseBytes

/-- The daemon replies to every request to come. -/
def Replying (w : World F) (s : Session F) : Prop :=
  s.world = w ∧ ∀ n, ∃ turn, s.fates n = .connected (.replies turn)

variable {c} {w : World F}

theorem localRequest_yields (hparse : c.json.ParseUndoesDump) (htoken : c.token = c.expectedToken)
    {op key : Bytes} (hreaches : c.Reaches w op key) {answer : Except Error Bytes} {r : Except LocalError Json}
    (hdispatch : ∀ turn : Turn S,
      dispatch c.json turn.env ⟨c.token, op, key, [], [], []⟩ turn.now w = (answer, w))
    (hr : ∀ reply, answer = .ok reply → localRequest (requestRaw c.json reply) = r) :
    Prog.Yields (Replying w) (c.localRequest op key none) r := by
  intro s hs
  obtain ⟨hworld, hfates⟩ := hs
  obtain ⟨turn, hturn⟩ := hfates 0
  obtain ⟨⟨line, hline⟩, hreply⟩ := hreaches
  obtain ⟨reply, hreply, hshort⟩ := hreply turn
  rw [hdispatch turn] at hreply
  have hrespond : respond c.json c.expectedToken turn line w = (.ok reply, w) := by
    have hd := (hdispatch turn).trans (congrArg (·, w) hreply)
    simp only [← htoken, respond_request hparse hline, Prog.tryCatch, Option.getD_none, hd]
  have hexchange : c.exchange op key none (s.fates 0) s.world = (requestRaw c.json reply, w) := by
    simp only [hturn, hworld, Channel.exchange, hline, Channel.deliver, hrespond, gt_iff_lt,
      if_neg (Nat.not_lt.mpr hshort)]
  refine ⟨⟨w, fun n => s.fates (n + 1)⟩, ?_, rfl, fun n => hfates (n + 1)⟩
  simp only [Channel.localRequest, Channel.request, hexchange, hr reply hreply]

theorem dispatch_get {token key : Bytes} (hkey : key ≠ []) (hstrings : HoldsStrings w.store.data)
    (env : Env S) (now : UInt64) :
    dispatch c.json env ⟨token, text "get", key, [], [], []⟩ now w =
      (match storedIn w.store.data key with
        | some value => okValue c.json value
        | none => errorResponse c.json kErrNotFound, w) := by
  rw [dispatch, if_pos rfl, if_neg hkey]
  cases hget : w.store.data[key]? with
  | none =>
    have hmissing : w.store.get key = .ok none := by rw [Store.get, hget]
    simp only [storedIn, hget, Prog.bind_apply, Prog.get_apply, Prog.ofExcept_apply, hmissing]
  | some j =>
    obtain ⟨v, rfl⟩ := hstrings key j hget
    have hvalue : w.store.get key = .ok (some v) := by
      rw [Store.get, hget]
      rfl
    simp only [storedIn, hget, Prog.bind_apply, Prog.get_apply, Prog.ofExcept_apply, hvalue]

theorem reaches_get {key : Bytes} (hkey : key ≠ []) (hstrings : HoldsStrings w.store.data)
    (hline : ∃ line, serializeRequest c.json c.token (text "get") key none = .ok line)
    (hreply : ∃ reply, (match storedIn w.store.data key with
      | some value => okValue c.json value
      | none => errorResponse c.json kErrNotFound) = .ok reply ∧ reply.length ≤ kMaxResponseBytes) :
    c.Reaches w (text "get") key := by
  refine ⟨hline, fun turn : Turn S => ?_⟩
  rw [dispatch_get hkey hstrings]
  exact hreply

section

variable (hparse : c.json.ParseUndoesDump) (htoken : c.token = c.expectedToken)
  (hstrings : HoldsStrings w.store.data)
include hparse htoken hstrings

theorem get_yields {path : Bytes} (hpath : path ≠ []) (hreaches : c.Reaches w (text "get") path) :
    Prog.Yields (Replying w) (c.localRequest (text "get") path none) (match storedIn w.store.data path with
      | some value => .ok (.object [(text "ok", .boolean true), (text "value", .string value)])
      | none => .error (.backend notFoundError)) := by
  refine localRequest_yields hparse htoken hreaches
    (fun turn => dispatch_get hpath hstrings turn.env turn.now) fun reply hreply => ?_
  cases hstored : storedIn w.store.data path with
  | some value =>
    rw [hstored] at hreply
    rw [requestRaw_okValue hparse hreply]
    rfl
  | none =>
    rw [hstored] at hreply
    rw [requestRaw_errorResponse hparse hreply, localRequest, if_pos rfl]
    rfl

theorem fetchPath_yields {path : Bytes} (hpath : path ≠ []) (hreaches : c.Reaches w (text "get") path)
    {batched : Bool} {scope : Scope}
    (hscope : batched = true → scope[path]? = storedIn w.store.data path) (fetched : Fetched) :
    Prog.Yields (Replying w) (fetchPath c.localRequest batched scope fetched path)
      (.ok (record (storedIn w.store.data) fetched path)) := by
  have hget := get_yields hparse htoken hstrings hpath hreaches
  unfold record
  cases hstored : storedIn w.store.data path with
  | some value =>
    have hvalue : Prog.Yields (Replying w) (fetchValue c.localRequest batched scope path) (.ok value) := by
      cases batched with
      | true =>
        simp only [fetchValue, hscope rfl, hstored]
        exact .pure value
      | false =>
        rw [hstored] at hget
        exact hget.bind (.ofExcept _)
    have hfetched : Prog.Yields (Replying w)
        (fetchValue c.localRequest batched scope path >>= fun value =>
          (pure { fetched with values := fetched.values.insertIfNew path value } :
            Prog LocalError (Session F) Fetched))
        (.ok { fetched with values := fetched.values.insertIfNew path value }) := hvalue.bind (.pure _)
    exact hfetched.tryCatch
  | none =>
    have hmissing : Prog.Yields (Replying w) (fetchValue c.localRequest batched scope path)
        (.error (.backend notFoundError)) := by
      cases batched with
      | true =>
        simp only [fetchValue, hscope rfl, hstored]
        exact .throw _
      | false =>
        rw [hstored] at hget
        exact hget.bind_error
    exact hmissing.bind_error.tryCatch_error (.pure _)

end

/-! The scope that `getprefix` brings. -/

theorem foldlM_addValue (entries : List (Bytes × Bytes)) (scope : Scope) :
    (entries.map fun v => (v.1, Json.string v.2)).foldlM addValue scope =
      .ok (entries.foldl (fun scope v => scope.insertIfNew v.1 v.2) scope) := by
  induction entries generalizing scope with
  | nil => rfl
  | cons entry entries ih =>
    rw [List.map_cons, List.foldlM_cons, List.foldl_cons, ← ih]
    rfl

theorem foldl_insertIfNew {P : Bytes → Bytes → Prop} {entries : List (Bytes × Bytes)}
    (hP : ∀ entry ∈ entries, ∀ v, P entry.1 v ↔ v = entry.2) (p v : Bytes) :
    (entries.foldl (fun scope v => scope.insertIfNew v.1 v.2) (∅ : Scope))[p]? = some v ↔
      p ∈ entries.map Prod.fst ∧ P p v := by
  induction entries using List.reverseRecOn generalizing p v with
  | nil => simp
  | append_singleton entries entry ih =>
    rw [List.foldl_append, List.map_append]
    exact getElem?_insertIfNew_iff (fun p v => ih (fun e he => hP e (by simp [he])) p v) (hP entry (by simp)) p v

theorem storedIn_eq_some {data : Data} {p v : Bytes} : storedIn data p = some v ↔
    data[p]? = some (.string v) := by
  unfold storedIn
  split <;> simp_all

section

variable (hparse : c.json.ParseUndoesDump) (htoken : c.token = c.expectedToken)
  (hstrings : HoldsStrings w.store.data)
include hparse htoken hstrings

theorem fetchScope_yields {pre : Bytes} (hpre : pre ≠ []) (hreaches : c.Reaches w (text "getprefix") pre) :
    ∃ scope : Scope, Prog.Yields (Replying w) (fetchScope c.localRequest pre) (.ok scope) ∧
      ∀ p, pre <+: p → scope[p]? = storedIn w.store.data p := by
  have hanswers : Answers w.store fun key => w.store.data[key]? := Store.answers fun _ => rfl
  obtain ⟨entries, hentries, -, hmem⟩ := hanswers.getPrefix pre fun key j _ hj => hstrings key j hj
  have hask : Prog.Yields (Replying w) (c.localRequest (text "getprefix") pre none)
      (.ok (.object [(text "ok", .boolean true),
        (text "values", .object (entries.map fun v => (v.1, .string v.2)))])) := by
    refine localRequest_yields hparse htoken hreaches (fun turn => by
      rw [dispatch_getPrefix hpre, hentries])
      fun reply hreply => ?_
    rw [requestRaw_okValues hparse hreply]
    rfl
  refine ⟨entries.foldl (fun scope v => scope.insertIfNew v.1 v.2) ∅, hask.bind ?_, fun p hp => ?_⟩
  · rw [← foldlM_addValue]
    exact .ofExcept _
  · apply Option.ext
    intro v
    have hvalue : ∀ entry ∈ entries, ∀ v, (entry.1, v) ∈ entries ↔ v = entry.2 := by
      intro entry hentry v
      constructor
      · intro hv
        have hstored := (hmem entry.1 entry.2).mp hentry
        have hstored' := (hmem entry.1 v).mp hv
        rw [hstored.2] at hstored'
        exact (Json.string.inj (Option.some.inj hstored'.2)).symm
      · rintro rfl
        exact hentry
    rw [foldl_insertIfNew (P := fun p v => (p, v) ∈ entries) hvalue, storedIn_eq_some]
    constructor
    · exact fun h => ((hmem p v).mp h.2).2
    · intro h
      have hin := (hmem p v).mpr ⟨hp, h⟩
      exact ⟨List.mem_map.mpr ⟨(p, v), hin, rfl⟩, hin⟩

theorem fetchGroup_yields {paths : List Bytes} (hpaths : ∀ p ∈ paths, p ≠ [] ∧ c.Reaches w (text "get") p)
    (hscopes : ∀ p ∈ paths, ∀ q ∈ paths, p ≠ q → scopeOf p = scopeOf q → scopeOf p ≠ [] →
      c.Reaches w (text "getprefix") (scopeOf p))
    {group : Bytes × List Bytes} (hgroup : group ∈ (byPrefix paths).toList) (fetched : Fetched) :
    Prog.Yields (Replying w) (fetchGroup c.localRequest fetched group)
      (.ok (group.2.foldl (record (storedIn w.store.data)) fetched)) := by
  obtain ⟨pre, group⟩ := group
  obtain ⟨hnodup, hmem⟩ := (Grouping.groupBy_grouped paths).of_toList hgroup
  obtain ⟨scope, hscope, hvalues⟩ : ∃ scope : Scope,
      Prog.Yields (Replying w) (if pre ≠ [] ∧ group.length > 1 then fetchScope c.localRequest pre else pure ∅)
        (.ok scope) ∧
      ∀ p, pre <+: p → decide (pre ≠ [] ∧ group.length > 1) = true → scope[p]? = storedIn w.store.data p := by
    split_ifs with hbatched
    · obtain ⟨p, q, hp, hq, hne⟩ : ∃ p q, p ∈ group ∧ q ∈ group ∧ p ≠ q := by
        obtain ⟨p, q, rest, rfl⟩ : ∃ p q rest, group = p :: q :: rest := by
          match group, hbatched.2 with
          | p :: q :: rest, _ => exact ⟨p, q, rest, rfl⟩
        refine ⟨p, q, by simp, by simp, ?_⟩
        rintro rfl
        exact (List.nodup_cons.mp hnodup).1 (by simp)
      obtain ⟨hp, hpre⟩ := (hmem p).mp hp
      obtain ⟨hq, hpre'⟩ := (hmem q).mp hq
      subst hpre
      obtain ⟨scope, hscope, hvalues⟩ := fetchScope_yields hparse htoken hstrings hbatched.1
        (hscopes p hp q hq hne hpre'.symm hbatched.1)
      exact ⟨scope, hscope, fun p hp _ => hvalues p hp⟩
    · exact ⟨∅, .pure ∅, fun p _ h => absurd (of_decide_eq_true h) hbatched⟩
  refine hscope.bind (.foldlM (fun fetched p hp => ?_) fetched)
  obtain ⟨hin, rfl⟩ := (hmem p).mp hp
  exact fetchPath_yields hparse htoken hstrings (hpaths p hin).1 (hpaths p hin).2
    (fun h => hvalues p (List.rdropWhile_prefix _ _) h) fetched

theorem getMany_yields {paths : List Bytes} (hpaths : ∀ p ∈ paths, p ≠ [] ∧ c.Reaches w (text "get") p)
    (hscopes : ∀ p ∈ paths, ∀ q ∈ paths, p ≠ q → scopeOf p = scopeOf q → scopeOf p ≠ [] →
      c.Reaches w (text "getprefix") (scopeOf p)) :
    ∃ fetched, Prog.Yields (Replying w) (getMany c.localRequest paths) (.ok fetched) ∧
      Recorded (storedIn w.store.data) paths fetched := by
  have hgroups : Grouping.Grouped scopeOf paths (byPrefix paths) := Grouping.groupBy_grouped paths
  have hrecorded := recorded_foldl (storedIn w.store.data) ((byPrefix paths).toList.flatMap Prod.snd)
  refine ⟨_, ?_, hrecorded.congr fun p => hgroups.mem_flat p⟩
  rw [List.foldl_flatMap]
  exact .foldlM (fun fetched group hgroup =>
    fetchGroup_yields hparse htoken hstrings hpaths hscopes hgroup fetched) _

end

/-- Grouped or one by one, the fetched values are the stored ones. -/
theorem get_many_exact (hparse : c.json.ParseUndoesDump) (htoken : c.token = c.expectedToken) {s : Session F}
    (hreplies : ∀ n, ∃ turn, s.fates n = .connected (.replies turn)) (hstrings : HoldsStrings s.world.store.data)
    {paths : List Bytes} (hpaths : ∀ p ∈ paths, p ≠ [] ∧ c.Reaches s.world (text "get") p)
    (hscopes : ∀ p ∈ paths, ∀ q ∈ paths, p ≠ q → scopeOf p = scopeOf q → scopeOf p ≠ [] →
      c.Reaches s.world (text "getprefix") (scopeOf p)) :
    ∃ fetched, (getMany c.localRequest paths s).1 = .ok fetched ∧
      (getEach c.localRequest paths s).1 = .ok fetched ∧
      (∀ p, p ∈ fetched.values ∨ p ∈ fetched.failures ↔ p ∈ paths) ∧
      (∀ p, ¬(p ∈ fetched.values ∧ p ∈ fetched.failures)) ∧
      (∀ p ∈ paths, ∀ v, s.world.store.data[p]? = some (.string v) → fetched.values[p]? = some v) ∧
      ∀ p ∈ paths, p ∉ s.world.store.data → ∃ e, fetched.failures[p]? = some e ∧ e.kind = .notFound := by
  obtain ⟨fetched, hmany, hrecorded⟩ := getMany_yields hparse htoken hstrings hpaths hscopes
  let stored := storedIn s.world.store.data
  have heach : Prog.Yields (Replying s.world) (getEach c.localRequest paths)
      (.ok (paths.dedup.foldl (record stored) ⟨∅, ∅⟩)) := by
    refine .foldlM (fun fetched p hp => ?_) _
    obtain ⟨hp, hreaches⟩ := hpaths p (List.mem_dedup.mp hp)
    exact fetchPath_yields hparse htoken hstrings hp hreaches (fun h => absurd h Bool.false_ne_true) fetched
  have hsame := (recorded_foldl stored paths.dedup).eq_of_mem hrecorded fun p => List.mem_dedup
  obtain ⟨t, ht, -⟩ := hmany s ⟨rfl, hreplies⟩
  obtain ⟨u, hu, -⟩ := heach s ⟨rfl, hreplies⟩
  refine ⟨fetched, congrArg Prod.fst ht, (congrArg Prod.fst hu).trans (congrArg Except.ok hsame), hrecorded.mem,
    hrecorded.disjoint, fun p hp v hv => ?_, fun p hp hmissing => ?_⟩
  · exact (hrecorded.values p v).mpr ⟨hp, storedIn_eq_some.mpr hv⟩
  · have hnone : stored p = none := by simp [stored, storedIn, hmissing]
    exact ⟨notFoundError, (hrecorded.failures p _).mpr ⟨hp, hnone, rfl⟩, rfl⟩

end

def fetchTable : List (Bytes × Json) :=
  [(braced "\"key\":\"e/p/A\",\"op\":\"get\",\"token\":\"t\"",
      requestObject (text "t") (text "get") (text "e/p/A") none),
    (braced "\"key\":\"e/p/C\",\"op\":\"get\",\"token\":\"t\"",
      requestObject (text "t") (text "get") (text "e/p/C") none),
    (braced "\"key\":\"D\",\"op\":\"get\",\"token\":\"t\"",
      requestObject (text "t") (text "get") (text "D") none),
    (braced "\"key\":\"e/p/\",\"op\":\"getprefix\",\"token\":\"t\"",
      requestObject (text "t") (text "getprefix") (text "e/p/") none),
    (braced "\"error\":\"not found\",\"ok\":false",
      .object [(text "error", .string (text "not found")), (text "ok", .boolean false)]),
    (braced "\"ok\":true,\"value\":\"x\"",
      .object [(text "ok", .boolean true), (text "value", .string (text "x"))]),
    (braced ("\"ok\":true,\"values\":" ++ "\x7b\"e/p/A\":\"x\",\"e/p/B\":\"y\"\x7d"),
      .object [(text "ok", .boolean true),
        (text "values", .object [(text "e/p/A", .string (text "x")), (text "e/p/B", .string (text "y"))])])]

def fetchChannel : Channel := ⟨tableOf fetchTable, text "sock", text "t", text "t"⟩

def fetchSession : Session (storeFormat taggedBoxes) where
  world := { sampleStart with store := { sampleStart.store with
    data := (∅ : Data).insert (text "e/p/A") (.string (text "x")) |>.insert (text "e/p/B")
      (.string (text "y")) } }
  fates _ := .connected (.replies sampleTurn)

theorem get_many_exact_sample : ∃ fetched : Fetched,
    (getMany fetchChannel.localRequest [text "e/p/A", text "D", text "e/p/C"] fetchSession).1 = .ok fetched ∧
      (getEach fetchChannel.localRequest [text "e/p/A", text "D", text "e/p/C"] fetchSession).1 = .ok fetched ∧
      fetched.values[text "e/p/A"]? = some (text "x") ∧
      ∃ e, fetched.failures[text "e/p/C"]? = some e ∧ e.kind = .notFound := by
  have hstrings : HoldsStrings fetchSession.world.store.data := by
    intro key j hj
    simp only [fetchSession, Std.ExtTreeMap.getElem?_insert] at hj
    split_ifs at hj
    · exact ⟨_, (Option.some.inj hj).symm⟩
    · exact ⟨_, (Option.some.inj hj).symm⟩
    · simp at hj
  have hlong : ∀ entry ∈ fetchTable, entry.1.length ≤ kMaxResponseBytes := by decide
  have hreply {j : Json} (hok : (fetchChannel.json.dump j).isOk = true) :
      ∃ reply, fetchChannel.json.dump j = .ok reply ∧ reply.length ≤ kMaxResponseBytes := by
    obtain ⟨reply, hdump⟩ := Prog.except_exists_of_isOk hok
    exact ⟨reply, hdump, hlong _ (tableOf_dump hdump).1⟩
  have hget {path : Bytes} (hpath : path ≠ [])
      (hline : (serializeRequest fetchChannel.json (text "t") (text "get") path none).isOk = true)
      (hok : (match storedIn fetchSession.world.store.data path with
        | some value => okValue fetchChannel.json value
        | none => errorResponse fetchChannel.json kErrNotFound).isOk = true) :
      path ≠ [] ∧ fetchChannel.Reaches fetchSession.world (text "get") path := by
    refine ⟨hpath, reaches_get hpath hstrings (Prog.except_exists_of_isOk hline) ?_⟩
    cases hstored : storedIn fetchSession.world.store.data path with
    | some value =>
      rw [hstored] at hok
      exact hreply hok
    | none =>
      rw [hstored] at hok
      exact hreply hok
  have hscope : fetchChannel.Reaches fetchSession.world (text "getprefix") (text "e/p/") := by
    refine ⟨Prog.except_exists_of_isOk (by decide), fun turn => ?_⟩
    have hentries : fetchSession.world.store.getPrefix (text "e/p/") =
        .ok [(text "e/p/A", text "x"), (text "e/p/B", text "y")] := rfl
    have hok : (okValues fetchChannel.json [(text "e/p/A", text "x"), (text "e/p/B", text "y")]).isOk = true := by
      decide
    rw [dispatch_getPrefix (by decide), hentries]
    exact hreply hok
  obtain ⟨fetched, hmany, heach, -, -, hvalues, hfailures⟩ := @get_many_exact _ _ fetchChannel
    (tableOf_parseUndoesDump _) rfl fetchSession (fun _ => ⟨_, rfl⟩) hstrings
    [text "e/p/A", text "D", text "e/p/C"] (by
      simp only [List.forall_mem_cons]
      exact ⟨hget (by decide) (by decide) (by decide),
        hget (by decide) (by decide) (by decide),
        hget (by decide) (by decide) (by decide), by simp⟩)
    (by
      have hscopes : ∀ p ∈ [text "e/p/A", text "D", text "e/p/C"], scopeOf p ≠ [] → scopeOf p = text "e/p/" := by
        decide
      intro p hp q _ _ _ hpre
      rw [hscopes p hp hpre]
      exact hscope)
  exact ⟨fetched, hmany, heach, hvalues _ (by simp) _ (by decide), hfailures _ (by simp) (by decide)⟩

end Secretov
