import Secretov.Contention
import Secretov.ImportRuns
import Secretov.Lib.Keeps
import Secretov.TuiRuns

/-! Writes that are meant to create: an import without `--overwrite`, and a key added
in the TUI. The look at the store and the writes are requests of their own, and
another client's set may come between. -/

namespace Secretov

variable {S : Sodium} {F : Format S} {c : Channel} {start : World F}

/-! The import. -/

section

variable {yaml : YamlCpp} {args : ImportArgs} {around : Surroundings} {s t : ImportState (Contended F)}

theorem storePairs_checked (hparse : c.json.ParseUndoesDump) (hok : ∃ r, okResponse c.json = .ok r)
    {target : Target} {keys : Bytes → Prop} {pairs : KeyValues} {stored : List Bytes}
    (hpairs : ∀ pair ∈ pairs, Sendable c target pair ∧ keys (target.key pair.1))
    (h : Checked keys start s.session) {r : Except ImportError (List Bytes)}
    (hrun : pairs.foldlM (storePair c.contendedRequest target) stored s = (r, t)) :
    Checked keys start t.session := by
  induction pairs generalizing stored s with
  | nil =>
    obtain ⟨-, rfl⟩ := Prod.mk.inj hrun
    exact h
  | cons pair pairs ih =>
    rw [List.foldlM_cons, Prog.bind_apply] at hrun
    obtain ⟨hsendable, hkey⟩ := hpairs pair (by simp)
    have hasked := contendedRequest_asked hparse hok (text "set") (target.key pair.1) (some pair.2) h.history
    have hchecked := h.asked hasked fun _ => hkey
    rcases hstep : storePair c.contendedRequest target stored pair s with ⟨first, u⟩
    rw [hstep] at hrun
    obtain ⟨rfl, -⟩ := storePair_cases hsendable hstep
    cases first with
    | error e =>
      obtain ⟨-, rfl⟩ := Prod.mk.inj hrun
      exact hchecked
    | ok keys => exact ih (fun p hp => hpairs p (List.mem_cons_of_mem _ hp)) hchecked hrun

/-- The keys that an import finds absent, it sets. -/
theorem import_checked (hparse : c.json.ParseUndoesDump) (hok : ∃ r, okResponse c.json = .ok r)
    (hoverwrite : args.overwrite = false) (hlog : s.session.log = []) {r : Except ImportError Imported}
    (h : cmdImport c.contendedRequest c yaml args around s = (r, t)) :
    (∀ e ∈ t.session.log, e.mine = true → e.op ≠ text "set") ∨
      ∃ keys, Checked keys s.session.session.world t.session := by
  have hstart : (keeping F).History s.session.session.world s.session.log s.session.session.world := by
    rw [hlog]
    exact .nil
  have hgetPrefix : text "getprefix" ≠ text "set" ∧ text "getprefix" ≠ text "delete" := by decide
  have hasked (pre : Bytes) := contendedRequest_asked hparse hok (text "getprefix") pre none hstart
  rw [hlog] at hasked
  rcases cmdImport_session h with ⟨e, hchecks⟩ | ⟨plan, u, stored, v, hchecks, hpairs, hsession⟩
  · rcases importChecks_cases hchecks with ⟨rfl, -⟩ | ⟨target, pre, -, -, rfl, -⟩
    · rw [hlog]
      exact .inl nofun
    · exact .inl ((hasked pre).unset hgetPrefix.1 nofun)
  · rcases importChecks_cases hchecks with ⟨-, what, hrefused⟩ | ⟨target, pre, htarget, hpre, rfl, hreplied⟩
    · cases hrefused
    rcases hreplied with ⟨what, hrefused⟩ | ⟨resp, existing, plan', hresp, hexisting, hplan, hplans⟩
    · cases hrefused
    obtain rfl := Except.ok.inj hplans
    have hplanned := importPlan_ok hplan
    obtain ⟨hne, hunder⟩ := scopePrefix_ok hpre
    let keys (key : Bytes) : Prop := ∃ pair ∈ target.pairs, key = target.key pair.1
    have hchecked : Checked keys s.session.session.world
        (c.contendedRequest (text "getprefix") pre none s.session).2 := by
      refine (hasked pre).checked hgetPrefix.1 hgetPrefix.2 hresp ?_
      rintro w w' hexchanged _ ⟨pair, hpair, rfl⟩ hmem
      obtain ⟨entries, hentries, rfl⟩ := (exchange_getPrefix hparse hne hexchanged).2 resp rfl
      exact hplanned.unasked hoverwrite pair hpair (mem_existing hentries hexisting (hunder pair.1) hmem)
    rw [hplanned.sameTarget] at hpairs
    refine .inr ⟨keys, ?_⟩
    rw [hsession]
    exact storePairs_checked hparse hok (fun pair hpair => ⟨hplanned.sendable pair hpair, pair, hpair, rfl⟩)
      hchecked hpairs

end

/-! The key added in the TUI. -/

/-- `value("keys", {})` as strings. -/
def keysOf (resp : Json) : Except Error (List Bytes) :=
  match resp with
  | .object members => match members.lookup (text "keys") with
    | none => .ok []
    | some (.array items) => items.mapM Json.getString
    | some j => .error (.typeError (text "[json.exception.type_error.302] type must be array, but is " ++
        j.typeName))
  | j => .error (.typeError (text "[json.exception.type_error.306] cannot use value() with " ++ j.typeName))

variable (c) in
/-- What a call of the TUI does at the daemon. Writing to the terminal does nothing there. -/
def daemonCall : (q : Call) → Prog LocalError (Contended F) q.Value
  | .list => do
    let resp ← c.contendedLocal (text "list") [] none
    Prog.ofExcept ((keysOf resp).mapError .error)
  | .get key => do
    let fetched ← getMany c.contendedLocal [key]
    match fetched.failures.toList, fetched.values[key]? with
    | failure :: _, _ => Prog.throw (.backend failure.2)
    | [], some value => return value
    | [], none => Prog.throw (.error (.outOfRange (text "map::at")))
  | .set key value => do
    let _ ← c.contendedLocal (text "set") key (some value)
    return ()
  | .remove key => do
    let _ ← c.contendedLocal (text "delete") key none
    return ()
  | .writeToTerminal _ => return ()

variable (c) in
/-- The daemon has answered these calls, the first one first. What the terminal
makes of its bytes is left open. -/
inductive Answering : Contended F → List (Dialogue.Exchange Answer) → Contended F → Prop
  | nil (s : Contended F) : Answering s [] s
  | call {s t u : Contended F} {q : Call} {answer : Answer q} {rest : List (Dialogue.Exchange Answer)}
      (h : daemonCall c q s = (answer.result, t)) (hrest : Answering t rest u) :
      Answering s (⟨q, answer⟩ :: rest) u
  | terminal {s u : Contended F} {value : Bytes} {answer : Answer (.writeToTerminal value)}
      {rest : List (Dialogue.Exchange Answer)} (hrest : Answering s rest u) :
      Answering s (⟨.writeToTerminal value, answer⟩ :: rest) u

section

variable {s t : Contended F}

/-- Nothing of ours has been set. -/
structure Unset (start : World F) (s : Contended F) : Prop where
  history : (keeping F).History start s.log s.session.world
  unset : ∀ e ∈ s.log, e.mine = true → e.op ≠ text "set"

theorem getMany_keeps {P : Contended F → Prop}
    (hask : ∀ op key, op ≠ text "set" → Prog.Keeps P (c.contendedLocal op key none)) (paths : List Bytes) :
    Prog.Keeps P (getMany c.contendedLocal paths) := by
  have hget : text "get" ≠ text "set" := by decide
  have hgetPrefix : text "getprefix" ≠ text "set" := by decide
  refine .foldlM (fun fetched group => ?_) _ _
  refine Prog.Keeps.bind ?_ fun scope => .foldlM (fun fetched path => ?_) _ _
  · split_ifs
    · exact (hask _ _ hgetPrefix).bind fun resp => .ofExcept _
    · exact .pure _
  · refine .tryCatch (Prog.Keeps.bind ?_ fun value => .pure _) fun e => ?_
    · unfold fetchValue
      split_ifs
      · exact (hask _ _ hget).bind fun resp => .ofExcept _
      · split
        · exact .pure _
        · exact .throw _
    · cases e with
      | error e => exact .throw _
      | backend e =>
        dsimp only
        split_ifs
        · exact .throw _
        · exact .pure _

/-- What every request but a set keeps, and the sets of some keys, every call keeps
that sets no other key. -/
theorem daemonCall_keeps {P : Contended F → Prop} (keys : Bytes → Prop)
    (hread : ∀ op key, op ≠ text "set" → Prog.Keeps P (c.contendedLocal op key none))
    (hset : ∀ key value, keys key → Prog.Keeps P (c.contendedLocal (text "set") key (some value)))
    {q : Call} (hq : ∀ key value, q = .set key value → keys key) : Prog.Keeps P (daemonCall c q) := by
  have hlist : text "list" ≠ text "set" := by decide
  have hdelete : text "delete" ≠ text "set" := by decide
  cases q with
  | list => exact (hread _ _ hlist).bind fun resp => .ofExcept _
  | get key =>
    refine (getMany_keeps hread [key]).bind fun fetched => ?_
    split
    · exact .throw _
    · exact .pure _
    · exact .throw _
  | set key value => exact (hset key value (hq key value rfl)).bind fun _ => .pure _
  | remove key => exact (hread _ _ hdelete).bind fun _ => .pure _
  | writeToTerminal bytes => exact .pure _

theorem Answering.keeps {P : Contended F → Prop} {calls : List (Dialogue.Exchange Answer)}
    (hcall : ∀ e ∈ calls, Prog.Keeps P (daemonCall c e.question)) (h : Answering c s calls t) (hs : P s) :
    P t := by
  induction h with
  | nil s => exact hs
  | @call s t u q answer rest h hrest ih =>
    refine ih (fun e he => hcall e (List.mem_cons_of_mem _ he)) ?_
    have ht := hcall ⟨q, answer⟩ (by simp) s hs
    rwa [h] at ht
  | terminal hrest ih => exact ih (fun e he => hcall e (List.mem_cons_of_mem _ he)) hs

theorem mapM_getString (keys : List Bytes) : (keys.map Json.string).mapM Json.getString = .ok keys := by
  induction keys with
  | nil => rfl
  | cons key keys ih =>
    rw [List.map_cons, List.mapM_cons, ih]
    rfl

theorem localRequest_eq_ok {r : Except ClientError Json} {resp : Json} (h : localRequest r = .ok resp) :
    r = .ok resp := by
  match r with
  | .ok resp' => exact congrArg Except.ok (Except.ok.inj h)
  | .error (.unreachable e) => cases h
  | .error (.error (.runtimeError message)) =>
    unfold localRequest at h
    dsimp only at h
    split_ifs at h
  | .error (.error (.parseError message)) | .error (.error (.typeError message))
  | .error (.error (.outOfRange message)) =>
    cases h

section

variable (hparse : c.json.ParseUndoesDump) (hok : ∃ r, okResponse c.json = .ok r)
include hparse hok

theorem unset_keeps (op key : Bytes) (value : Option Bytes) (hop : op ≠ text "set") :
    Prog.Keeps (Unset (F := F) start) (c.contendedLocal op key value) := by
  intro s hs
  have hasked := contendedRequest_asked hparse hok op key value hs.history
  exact ⟨hasked.history, hasked.unset hop hs.unset⟩

theorem checked_keeps {keys : Bytes → Prop} (op key : Bytes) (value : Option Bytes)
    (hkey : op = text "set" → keys key) :
    Prog.Keeps (Checked (F := F) keys start) (c.contendedLocal op key value) := by
  intro s hs
  exact hs.asked (contendedRequest_asked hparse hok op key value hs.history) hkey

theorem readOnly_unset {calls : List (Dialogue.Exchange Answer)} (hread : ReadOnly calls)
    (h : Answering c s calls t) (hs : Unset start s) : Unset start t := by
  refine h.keeps (fun e he => daemonCall_keeps (P := Unset start) (fun _ => False) ?_ nofun ?_) hs
  · exact fun op key hop => unset_keeps hparse hok op key none hop
  · intro key value hq
    have hwrites := hread e he
    rw [hq] at hwrites
    cases hwrites

/-- A name that is not in the list is not in the store that was listed. -/
theorem list_checked (hs : (keeping F).History start s.log s.session.world) (hlog : s.log = [])
    {keys : List Bytes} {name : Bytes} (hlist : daemonCall c .list s = (.ok keys, t)) (hnew : name ∉ keys) :
    Checked (· = name) start t := by
  have hop : text "list" ≠ text "set" ∧ text "list" ≠ text "delete" := by decide
  have hasked := contendedRequest_asked hparse hok (text "list") [] none hs
  rw [hlog] at hasked
  obtain ⟨resp, u, hresp, hkeys⟩ := Prog.bind_eq_ok.mp hlist
  obtain ⟨hlisted, rfl⟩ := Prod.mk.inj hkeys
  obtain ⟨hlocal, rfl⟩ := Prod.mk.inj hresp
  refine hasked.checked hop.1 hop.2 (localRequest_eq_ok hlocal) ?_
  rintro w w' hexchanged key rfl hmem
  obtain rfl := exchange_list hparse hexchanged
  have hkeysOf : keysOf (.object [(text "keys", .array (w.store.list.map .string)), (text "ok", .boolean true)]) =
      .ok w.store.list := mapM_getString w.store.list
  rw [hkeysOf] at hlisted
  obtain rfl := Except.ok.inj hlisted
  have hanswers : Answers w.store fun key => w.store.data[key]? := Store.answers fun _ => rfl
  exact hnew ((hanswers.mem_list key).mpr (Std.ExtTreeMap.mem_iff_isSome_getElem?.mp hmem))

/-- A name that is added was not in the store when it was listed. -/
theorem add_checked {marks : ProjectMarks} {past earlier : List Moment} {final : Tui} {m : Moment}
    (hrun : TuiRun marks past final) (hm : m :: earlier <:+ past) (hadd : m.before.mode = .add)
    (hlog : s.log = []) (h : Answering c s m.calls t) :
    (∀ e ∈ t.log, e.mine = true → e.op ≠ text "set") ∨ ∃ keys, Checked keys s.session.world t := by
  have hstart : (keeping F).History s.session.world s.log s.session.world := by
    rw [hlog]
    exact .nil
  have hunset : Unset s.session.world s := ⟨hstart, by simp [hlog]⟩
  have hmode : m.found.mode = .add := hadd
  obtain ⟨-, hhandles⟩ := Tui.run_moment hrun hm
  have hwrites := hhandles.writes
  generalize m.calls = calls at h hwrites
  cases hwrites with
  | none hread => exact .inl (readOnly_unset hparse hok hread h hunset).unset
  | edit hedit | overwrite hedit | delete hedit => cases hmode.symm.trans hedit
  | @add answer keys rest _ hresult hnew _ hsets =>
    cases h with
    | call hlist hrest =>
      rw [hresult] at hlist
      have hchecked := list_checked hparse hok hstart hlog hlist hnew
      refine .inr ⟨_, hrest.keeps (fun e he => ?_) hchecked⟩
      refine daemonCall_keeps _ (fun op key hop => checked_keeps hparse hok op key none fun h => absurd h hop)
        (fun key value hkey => checked_keeps hparse hok _ key (some value) fun _ => hkey) fun key value hq => ?_
      obtain ⟨value', hset⟩ := hsets e he (by rw [hq]; rfl)
      exact (Call.set.inj (hq.symm.trans hset)).1

/-- An import without `--overwrite`, or an add, replaces nothing of another's if and only
if no other client's set of the key comes between its check and its own set. -/
theorem creates_only_iff :
    (∀ (yaml : YamlCpp) (args : ImportArgs) (around : Surroundings) (s : ImportState (Contended F)),
      args.overwrite = false → s.session.log = [] →
      (ReplacesNothing (cmdImport c.contendedRequest c yaml args around s).2.session.log ↔
        Undisturbed (cmdImport c.contendedRequest c yaml args around s).2.session.log)) ∧
    ∀ (marks : ProjectMarks) (past earlier : List Moment) (final : Tui) (m : Moment) (s t : Contended F),
      TuiRun marks past final → m :: earlier <:+ past → m.before.mode = .add → s.log = [] →
      Answering c s m.calls t → (ReplacesNothing t.log ↔ Undisturbed t.log) := by
  constructor
  · intro yaml args around s hoverwrite hlog
    rcases import_checked hparse hok hoverwrite hlog rfl with hunset | ⟨keys, hchecked⟩
    · exact replacesNothing_iff_of_unset hunset
    · exact hchecked.replacesNothing_iff
  · intro marks past earlier final m s t hrun hm hadd hlog hanswers
    rcases add_checked hparse hok hrun hm hadd hlog hanswers with hunset | ⟨keys, hchecked⟩
    · exact replacesNothing_iff_of_unset hunset
    · exact hchecked.replacesNothing_iff

end

end

/-! Another client's set between the check of an import and its own set. -/

def raceChannel : Channel :=
  ⟨tableOf ((braced "\"e/p/A\":\"old\"", .object [(text "e/p/A", .string (text "old"))]) :: importTable),
    text "sock", text "t", text "t"⟩

def raceStart : ImportState (Contended (storeFormat taggedBoxes)) where
  session := ⟨importStart.session,
    fun n => if n = 1 then [⟨.set (text "e/p/A") (text "old"), sampleTurn⟩] else [], []⟩
  files _ := none

def raced : Except ImportError Imported × ImportState (Contended (storeFormat taggedBoxes)) :=
  cmdImport raceChannel.contendedRequest raceChannel (loadOnly importedText importedTree)
    importArgs importSurroundings raceStart

/-- A set of ours right after a set of the same key by another client. -/
theorem replaces_other {own other : Handled F} {log : List (Handled F)} (hown : own.mine = true)
    (hsets : own.Sets own.key)
    (hother : other.mine = false) (hsets' : other.Sets own.key) (hfound : own.key ∈ own.before.store.data) :
    ¬ReplacesNothing (own :: other :: log) := by
  intro h
  obtain ⟨w, hsince, hmine, -⟩ := h own (other :: log) (List.suffix_refl _) hown hsets hfound
  cases hsince with
  | now => cases hother.symm.trans hmine
  | later hnot _ => exact hnot hsets'.writes

theorem replaces_of_view {log : List (Handled F)} {key pre : Bytes}
    (hlog : (log.map fun e => (e.mine, e.op, e.key, e.acknowledged, decide (e.key ∈ e.before.store.data))) =
      [(true, text "set", key, true, true), (false, text "set", key, true, false),
        (true, text "getprefix", pre, false, false)]) : ¬ReplacesNothing log := by
  match log with
  | [own, other, check] =>
    simp only [List.map_cons, List.map_nil, List.cons.injEq, Prod.mk.injEq, decide_eq_true_eq, and_true] at hlog
    obtain ⟨⟨hown, hset, rfl, hack, hfound⟩, ⟨hother, hset', hkey, hack', -⟩, -⟩ := hlog
    exact replaces_other hown ⟨hack, hset, rfl⟩ hother ⟨hack', hset', hkey⟩ hfound
  | [] | [_] | [_, _] | _ :: _ :: _ :: _ :: _ => simp at hlog

theorem raced_eq : (raced.1, raced.2.session.log.map fun e => (e.mine, e.op, e.key, e.acknowledged,
    decide (e.key ∈ e.before.store.data))) =
      (.ok ⟨1, text "e/p/", 0, text "/w/.secretov.yaml"⟩,
        [(true, text "set", text "e/p/A", true, true), (false, text "set", text "e/p/A", true, false),
          (true, text "getprefix", text "e/p/", false, false)]) := by
  decide +kernel

theorem import_replaces : raced.1 = .ok ⟨1, text "e/p/", 0, text "/w/.secretov.yaml"⟩ ∧
    ¬ReplacesNothing raced.2.session.log :=
  ⟨(Prod.mk.inj raced_eq).1, replaces_of_view (Prod.mk.inj raced_eq).2⟩

theorem creates_only_iff_sample :
    (ReplacesNothing raced.2.session.log ↔ Undisturbed raced.2.session.log) := by
  have hok : (okResponse raceChannel.json).isOk = true := by decide +kernel
  have hparse : raceChannel.json.ParseUndoesDump := tableOf_parseUndoesDump _
  unfold raced
  exact (creates_only_iff (c := raceChannel) hparse (Prog.except_exists_of_isOk hok)).1
    (loadOnly importedText importedTree) importArgs importSurroundings raceStart rfl rfl

end Secretov
