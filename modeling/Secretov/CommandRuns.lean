import Secretov.ClientOutcomes
import Secretov.Commands
import Secretov.FetchMany

/-! Commands one after another, whatever becomes of their requests: each does to the
store what its exit and its output say. -/

namespace Secretov

theorem byPrefix_one (path : Bytes) : (byPrefix [path]).toList = [(scopeOf path, [path])] := rfl

theorem getMany_one {σ : Type} (ask : Bytes → Bytes → Option Bytes → Prog LocalError σ Json) (path : Bytes) :
    getMany ask [path] = fetchPath ask false ∅ ⟨∅, ∅⟩ path := by
  funext s
  rw [getMany, byPrefix_one]
  simp only [List.foldlM_cons, List.foldlM_nil, fetchGroup, List.length_singleton, gt_iff_lt, lt_irrefl,
    and_false, decide_false, if_false, Prog.bind_apply, Prog.pure_apply]
  rcases fetchPath ask false ∅ ⟨∅, ∅⟩ path s with ⟨e | a, t⟩ <;> rfl

theorem fetchValue_single {σ : Type} (ask : Bytes → Bytes → Option Bytes → Prog LocalError σ Json)
    (path : Bytes) : fetchValue ask false ∅ path = (do
      let resp ← ask (text "get") path none
      Prog.ofExcept (takeString (resp.index (text "value")))) := rfl

variable {S : Sodium} {F : Format S} {c : Channel} {w w' : World F}

/-- What is handled is acknowledged as it was applied, or may have been applied. -/
theorem exchange_call (hparse : c.json.ParseUndoesDump) (hline : c.json.DumpsOneLine)
    (hok : ∃ r, okResponse c.json = .ok r) {op : Op} {r : Except ClientError Json}
    (h : Exchanged c op.name op.key op.value w r w') :
    (∃ reply, r = .ok reply ∧ Applied w w' reply op) ∨
      (∃ e, r = .error e ∧ (w' = w ∨ e.maybeApplied = true ∧ ∃ reply, Applied w w' reply op)) := by
  cases h with
  | unhandled e => exact .inr ⟨e, rfl, .inl rfl⟩
  | handled hserialized hrespond hr =>
    rcases respond_call hparse hline hok hserialized hrespond with ⟨reply, rfl, -, htruth⟩ | ⟨⟨e, rfl⟩, rfl⟩
    · rcases hr with ⟨e, rfl, happlied⟩ | ⟨reply', hreply, rfl⟩
      · refine .inr ⟨e, rfl, ?_⟩
        rcases htruth with ⟨j, -, happly⟩ | ⟨hsame, -⟩
        · exact .inr ⟨happlied, j, happly⟩
        · exact .inl hsame
      · obtain rfl := Except.ok.inj hreply
        rcases htruth with ⟨j, hj, happly⟩ | ⟨rfl, e, he⟩
        · exact .inl ⟨j, hj, happly⟩
        · exact .inr ⟨_, he, .inl rfl⟩
    · rcases hr with ⟨e, rfl, -⟩ | ⟨reply, hreply, -⟩
      · exact .inr ⟨e, rfl, .inl rfl⟩
      · cases hreply

/-- What a command line comes to. -/
inductive Demand where
  | get (path : Bytes)
  | set (path value : Bytes)
  | delete (path : Bytes)
  | list (pre : Bytes)
  | «show» (lines : Bytes)
deriving DecidableEq

inductive Command where
  | get (argv : List Bytes)
  | set (argv : List Bytes) (input : ValueInput)
  | delete (argv : List Bytes)
  | list (argv : List Bytes)

/-- A command with what it finds around it. -/
structure Invocation (S : Sodium) where
  command : Command
  around : ExecSurroundings
  files : ManifestFiles
  fates : Nat → Fate S

def Invocation.demand (yaml : YamlCpp) (inv : Invocation S) : Except CommandError Demand :=
  match inv.command with
  | .get argv => (namedPath yaml inv.around inv.files true argv).map .get
  | .set argv input => (setTarget yaml inv.around inv.files argv input).map fun target => .set target.1 target.2
  | .delete argv => (namedPath yaml inv.around inv.files true argv).map .delete
  | .list argv => (listTarget yaml inv.around inv.files argv).map fun
    | .inl pre => .list pre
    | .inr lines => .show lines

def Invocation.run (c : Channel) (yaml : YamlCpp) (inv : Invocation S) : CommandM F Bytes :=
  match inv.command with
  | .get argv => cmdGet c yaml inv.around inv.files argv
  | .set argv input => cmdSet c yaml inv.around inv.files argv input
  | .delete argv => cmdDelete c yaml inv.around inv.files argv
  | .list argv => cmdList c yaml inv.around inv.files argv

def runCommands (c : Channel) (yaml : YamlCpp) :
    List (Invocation S) → World F → List (Except CommandError Bytes) × World F
  | [], w => ([], w)
  | inv :: more, w =>
    let r := inv.run c yaml ⟨w, inv.fates⟩
    let rest := runCommands c yaml more r.2.world
    (r.1 :: rest.1, rest.2)

/-- What a command makes of a map, by what it says of itself. Only an error that
leaves it open may have changed something. -/
inductive Explains (map : Bytes → Option Json) :
    Except CommandError Demand → Except CommandError Bytes → (Bytes → Option Json) → Prop
  | refused (e : CommandError) : Explains map (.error e) (.error e) map
  | failed (demand : Demand) (e : CommandError) : Explains map (.ok demand) (.error e) map
  | got {path value : Bytes} (hvalue : map path = some (.string value)) :
      Explains map (.ok (.get path)) (.ok (value ++ [newline])) map
  | stored (path value : Bytes) : Explains map (.ok (.set path value)) (.ok [])
      (Function.update map path (some (.string value)))
  | maybeStored (path value : Bytes) {e : CommandError} (happlied : e.maybeApplied = true) :
      Explains map (.ok (.set path value)) (.error e) (Function.update map path (some (.string value)))
  | removed {path : Bytes} (hthere : (map path).isSome) :
      Explains map (.ok (.delete path)) (.ok []) (Function.update map path none)
  | maybeRemoved {path : Bytes} {e : CommandError} (hthere : (map path).isSome)
      (happlied : e.maybeApplied = true) :
      Explains map (.ok (.delete path)) (.error e) (Function.update map path none)
  | listed {pre : Bytes} {keys : List Bytes} (hsorted : keys.Pairwise fun a b => compare a b = .lt)
      (hmem : ∀ key, key ∈ keys ↔ pre <+: key ∧ (map key).isSome) :
      Explains map (.ok (.list pre)) (.ok (keys.flatMap (· ++ [newline]))) map
  | shown (lines : Bytes) : Explains map (.ok (.show lines)) (.ok lines) map

inductive ExplainsAll : (Bytes → Option Json) → List (Except CommandError Demand) →
    List (Except CommandError Bytes) → (Bytes → Option Json) → Prop
  | nil (map : Bytes → Option Json) : ExplainsAll map [] [] map
  | cons {map next last : Bytes → Option Json} {demand : Except CommandError Demand}
      {result : Except CommandError Bytes} {demands : List (Except CommandError Demand)}
      {results : List (Except CommandError Bytes)} (hfirst : Explains map demand result next)
      (hrest : ExplainsAll next demands results last) :
      ExplainsAll map (demand :: demands) (result :: results) last

def World.map (w : World F) : Bytes → Option Json := fun key => w.store.data[key]?

theorem map_insert {key : Bytes} {j : Json} (h : w'.store.data = w.store.data.insert key j) :
    w'.map = Function.update w.map key (some j) := by
  funext k
  simp only [World.map, h]
  exact (update_insert (fun _ => rfl) key j k).symm

theorem map_erase {key : Bytes} (h : w'.store.data = w.store.data.erase key) :
    w'.map = Function.update w.map key none := by
  funext k
  simp only [World.map, h]
  exact (update_erase (fun _ => rfl) key k).symm

theorem insertIfNew_empty {β : Type} (key : Bytes) (value : β) :
    ((∅ : Std.ExtTreeMap Bytes β compare).insertIfNew key value)[key]? = some value := by
  rw [Std.ExtTreeMap.getElem?_insertIfNew, if_pos (by simp)]

theorem localRequest_clientError (e : ClientError) :
    ∃ e', localRequest (.error e) = .error e' ∧ e'.maybeApplied = e.maybeApplied := by
  cases e with
  | unreachable e => exact ⟨_, rfl, rfl⟩
  | error e => exact localRequest_error e

section

variable (hparse : c.json.ParseUndoesDump) (hline : c.json.DumpsOneLine) (hok : ∃ r, okResponse c.json = .ok r)
include hparse hline hok

/-- A request of the local backend that is acknowledged was applied. One that fails was
not, unless its error says that it may have been. -/
theorem localRequest_call (op : Op) (s : Session F) :
    (∃ reply t, c.localRequest op.name op.key op.value s = (.ok reply, t) ∧ Applied s.world t.world reply op) ∨
    ∃ e t, c.localRequest op.name op.key op.value s = (.error e, t) ∧
      (t.world = s.world ∨ e.maybeApplied = true ∧ ∃ reply, Applied s.world t.world reply op) := by
  have hcall := exchange_call hparse hline hok
    (exchange_exchanged c op.name op.key op.value (s.fates 0) s.world)
  have hrun : c.localRequest op.name op.key op.value s =
      (localRequest (c.exchange op.name op.key op.value (s.fates 0)
    s.world).1, ⟨(c.exchange op.name op.key op.value (s.fates 0) s.world).2, fun n => s.fates (n + 1)⟩) := rfl
  rcases hcall with ⟨reply, hr, happlied⟩ | ⟨e, hr, hworld⟩
  · rw [hr] at hrun
    exact .inl ⟨reply, _, hrun, happlied⟩
  · obtain ⟨e', he', hmaybe⟩ := localRequest_clientError e
    rw [hr, he'] at hrun
    exact .inr ⟨e', _, hrun, by rwa [hmaybe]⟩

theorem cmdSet_explains (yaml : YamlCpp) (around : ExecSurroundings) (files : ManifestFiles) (argv : List Bytes)
    (input : ValueInput) (s : Session F) :
    Explains s.world.map ((setTarget yaml around files argv input).map fun target => .set target.1 target.2)
      (cmdSet c yaml around files argv input s).1 (cmdSet c yaml around files argv input s).2.world.map := by
  cases htarget : setTarget yaml around files argv input with
  | error e =>
    simp only [cmdSet, htarget, Prog.bind_apply, Prog.ofExcept_apply]
    exact .refused e
  | ok target =>
    obtain ⟨path, value⟩ := target
    simp only [cmdSet, htarget, Prog.bind_apply, Prog.ofExcept_apply, orThrow]
    rcases localRequest_call hparse hline hok (.set path value)
      s with ⟨reply, t, hrun, hdata⟩ | ⟨e, t, hrun, hworld⟩
    · simp only [Op.name, Op.key, Op.value] at hrun
      rw [hrun]
      have hmap := map_insert hdata
      simp only [Except.mapError, Prog.pure_apply]
      rw [hmap]
      exact .stored path value
    · simp only [Op.name, Op.key, Op.value] at hrun
      rw [hrun]
      rcases hworld with hworld | ⟨hmaybe, reply, hdata⟩
      · simp only [Except.mapError, hworld]
        exact .failed _ _
      · have hmap := map_insert hdata
        simp only [Except.mapError]
        rw [hmap]
        exact .maybeStored path value hmaybe

theorem cmdDelete_explains (yaml : YamlCpp) (around : ExecSurroundings) (files : ManifestFiles)
    (argv : List Bytes)
    (s : Session F) : Explains s.world.map ((namedPath yaml around files true argv).map .delete)
      (cmdDelete c yaml around files argv s).1 (cmdDelete c yaml around files argv s).2.world.map := by
  cases htarget : namedPath yaml around files true argv with
  | error e =>
    simp only [cmdDelete, htarget, Prog.bind_apply, Prog.ofExcept_apply]
    exact .refused e
  | ok path =>
    have hthere {w w' : World F} {reply : Json} (h : Applied w w' reply (.delete path)) :
        (w.map path).isSome := by
      rw [World.map, ← Std.ExtTreeMap.mem_iff_isSome_getElem?]
      exact h.1
    simp only [cmdDelete, htarget, Prog.bind_apply, Prog.ofExcept_apply, orThrow]
    rcases localRequest_call hparse hline hok (.delete path) s with ⟨reply, t, hrun, hdata⟩ | ⟨e, t, hrun, hworld⟩
    · simp only [Op.name, Op.key, Op.value] at hrun
      rw [hrun]
      have hmap := map_erase hdata.2
      simp only [Except.mapError, Prog.pure_apply]
      rw [hmap]
      exact .removed (hthere hdata)
    · simp only [Op.name, Op.key, Op.value] at hrun
      rw [hrun]
      rcases hworld with hworld | ⟨hmaybe, reply, hdata⟩
      · simp only [Except.mapError, hworld]
        exact .failed _ _
      · have hmap := map_erase hdata.2
        simp only [Except.mapError]
        rw [hmap]
        exact .maybeRemoved (hthere hdata) hmaybe

theorem getMany_single {path : Bytes} {s t : Session F} {r : Except LocalError Fetched}
    (h : getMany c.localRequest [path] s = (r, t)) : t.world = s.world ∧ ∀ fetched, r = .ok fetched →
      fetched.failures.toList ≠ [] ∨ fetched.failures.toList = [] ∧ ∃ value, fetched.values[path]? = some value ∧
        s.world.map path = some (.string value) := by
  rw [getMany_one, fetchPath, Prog.tryCatch] at h
  rw [fetchValue_single] at h
  rcases localRequest_call hparse hline hok (.get path) s with ⟨reply, t', hrun, hsame, value, hstored, hvalue⟩ |
    ⟨e, t', hrun, hworld⟩
  · simp only [Op.name, Op.key, Op.value] at hrun
    have hindex : reply.index (text "value") = .string value := by rw [Json.index, hvalue]; rfl
    simp only [Prog.bind_apply, hrun, Prog.ofExcept_apply, hindex, takeString, Prog.pure_apply] at h
    obtain ⟨rfl, rfl⟩ := Prod.mk.inj h
    refine ⟨hsame, fun fetched hfetched => .inr ?_⟩
    obtain rfl := Except.ok.inj hfetched
    exact ⟨rfl, value, insertIfNew_empty path value, hstored⟩
  · replace hworld : t'.world = s.world := hworld.elim id fun h => h.2.elim fun _ happlied => happlied.1
    simp only [Op.name, Op.key, Op.value] at hrun
    simp only [Prog.bind_apply, hrun] at h
    cases e with
    | backend e =>
      dsimp only at h
      split_ifs at h
      · obtain ⟨rfl, rfl⟩ := Prod.mk.inj h
        exact ⟨hworld, fun fetched hfetched => by cases hfetched⟩
      · obtain ⟨rfl, rfl⟩ := Prod.mk.inj h
        refine ⟨hworld, fun fetched hfetched => .inl ?_⟩
        obtain rfl := Except.ok.inj hfetched
        intro hnil
        have hmem : (path, e) ∈ ((∅ : Std.ExtTreeMap Bytes BackendError compare).insertIfNew path e).toList := by
          exact Std.ExtTreeMap.mem_toList_iff_getElem?_eq_some.mpr (insertIfNew_empty path e)
        rw [hnil] at hmem
        cases hmem
    | error e =>
      obtain ⟨rfl, rfl⟩ := Prod.mk.inj h
      exact ⟨hworld, fun fetched hfetched => by cases hfetched⟩

theorem cmdGet_explains (yaml : YamlCpp) (around : ExecSurroundings) (files : ManifestFiles) (argv : List Bytes)
    (s : Session F) : Explains s.world.map ((namedPath yaml around files true argv).map .get)
      (cmdGet c yaml around files argv s).1 (cmdGet c yaml around files argv s).2.world.map := by
  cases htarget : namedPath yaml around files true argv with
  | error e =>
    simp only [cmdGet, htarget, Prog.bind_apply, Prog.ofExcept_apply]
    exact .refused e
  | ok path =>
    simp only [cmdGet, htarget, Prog.bind_apply, Prog.ofExcept_apply, orThrow]
    rcases hrun : getMany c.localRequest [path] s with ⟨e | fetched, t⟩
    · obtain ⟨hworld, -⟩ := getMany_single hparse hline hok hrun
      simp only [Except.mapError, hworld]
      exact .failed _ _
    · obtain ⟨hworld, hfetched⟩ := getMany_single hparse hline hok hrun
      simp only [Except.mapError, hworld, printValue]
      rcases hfetched fetched rfl with hfailures | ⟨hnone, value, hvalue, hstored⟩
      · cases hlist : fetched.failures.toList with
        | nil => exact absurd hlist hfailures
        | cons failure more => exact .failed _ _
      · rw [hnone]
        simp only [hvalue]
        exact .got hstored

omit hline hok in
theorem exchange_list_world {r : Except ClientError Json} (h : Exchanged c (text "list") [] none w r w') :
    w' = w := by
  cases h with
  | unhandled e => rfl
  | handled hserialized hrespond _ =>
    rw [respond_serialized hparse hserialized] at hrespond
    split_ifs at hrespond
    · exact (Prod.mk.inj hrespond).2.symm
    · simp only [Prog.tryCatch, Option.getD_none, dispatch_list] at hrespond
      cases hkeys : okKeys c.json w.store.list with
      | error e =>
        rw [hkeys] at hrespond
        exact (Prod.mk.inj hrespond).2.symm
      | ok keys =>
        rw [hkeys] at hrespond
        exact (Prod.mk.inj hrespond).2.symm

omit hline hok in
theorem request_list {s t : Session F} {r : Except ClientError Json}
    (h : c.request (text "list") [] none s = (r, t)) :
    t.world = s.world ∧ ∀ resp, r = .ok resp → keysOf resp = .ok s.world.store.list := by
  have hexchanged := exchange_exchanged c (text "list") [] none (s.fates 0) s.world
  obtain ⟨rfl, rfl⟩ := Prod.mk.inj h
  refine ⟨exchange_list_world hparse hexchanged, fun resp hresp => ?_⟩
  have hresp : (c.exchange (text "list") [] none (s.fates 0) s.world).1 = .ok resp := hresp
  rw [hresp] at hexchanged
  rw [exchange_list hparse hexchanged]
  exact mapM_getString _

omit hline hok in
theorem cmdList_explains (yaml : YamlCpp) (around : ExecSurroundings) (files : ManifestFiles) (argv : List Bytes)
    (s : Session F) : Explains s.world.map ((listTarget yaml around files argv).map fun
      | .inl pre => .list pre
      | .inr lines => .show lines)
      (cmdList c yaml around files argv s).1 (cmdList c yaml around files argv s).2.world.map := by
  cases htarget : listTarget yaml around files argv with
  | error e =>
    simp only [cmdList, htarget, Prog.bind_apply, Prog.ofExcept_apply]
    exact .refused e
  | ok target =>
    cases target with
    | inr lines =>
      simp only [cmdList, htarget, Prog.bind_apply, Prog.ofExcept_apply]
      exact .shown lines
    | inl pre =>
      simp only [cmdList, htarget, Prog.bind_apply, Prog.ofExcept_apply, orThrow]
      rcases hrun : c.request (text "list") [] none s with ⟨e | resp, t⟩
      · obtain ⟨hworld, -⟩ := request_list hparse hrun
        simp only [Except.mapError, hworld]
        exact .failed _ _
      · obtain ⟨hworld, hkeys⟩ := request_list hparse hrun
        simp only [Except.mapError, hworld, hkeys resp rfl, Prog.pure_apply]
        have hanswers : Answers s.world.store s.world.map := Store.answers fun _ => rfl
        refine .listed (hanswers.list_sorted.filter _) fun key => ?_
        rw [List.mem_filter, List.isPrefixOf_iff_prefix, hanswers.mem_list, and_comm]

theorem Invocation.explains (yaml : YamlCpp) (inv : Invocation S) (s : Session F) :
    Explains s.world.map (inv.demand yaml) (inv.run c yaml s).1 (inv.run c yaml s).2.world.map := by
  obtain ⟨command, around, files, fates⟩ := inv
  cases command with
  | get argv => exact cmdGet_explains hparse hline hok yaml around files argv s
  | set argv input => exact cmdSet_explains hparse hline hok yaml around files argv input s
  | delete argv => exact cmdDelete_explains hparse hline hok yaml around files argv s
  | list argv => exact cmdList_explains hparse yaml around files argv s

/-- Any commands, one after another, each with any surroundings and any fate of its
requests: together they are operations on a map, as their exits and outputs say. -/
theorem commands_explained (yaml : YamlCpp) (invocations : List (Invocation S)) (w : World F) :
    ExplainsAll w.map (invocations.map (Invocation.demand yaml)) (runCommands c yaml invocations w).1
      (runCommands c yaml invocations w).2.map := by
  induction invocations generalizing w with
  | nil => exact .nil _
  | cons inv more ih =>
    exact .cons (inv.explains hparse hline hok yaml ⟨w, inv.fates⟩) (ih (inv.run c yaml ⟨w, inv.fates⟩).2.world)

end

def commandTable : List (Bytes × Json) :=
  [(braced "\"key\":\"e/p/A\",\"op\":\"set\",\"token\":\"t\",\"value\":\"x\"",
      requestObject (text "t") (text "set") (text "e/p/A") (some (text "x"))),
    (braced "\"key\":\"e/p/A\",\"op\":\"get\",\"token\":\"t\"",
      requestObject (text "t") (text "get") (text "e/p/A") none),
    (braced "\"ok\":true", .object [(text "ok", .boolean true)]),
    (braced "\"ok\":true,\"value\":\"x\"",
      .object [(text "ok", .boolean true), (text "value", .string (text "x"))]),
    (braced "\"e/p/A\":\"x\"", .object [(text "e/p/A", .string (text "x"))])]

def commandChannel : Channel := ⟨tableOf commandTable, text "sock", text "t", text "t"⟩

/-- `echo x | secretov set -p p -e e A`, whose reply is lost, and then a get. -/
def sampleCommands : List (Invocation taggedBoxes.sodium) :=
  let around : ExecSurroundings := { importSurroundings with registry := text "r" }
  let argv := [text "-p", text "p", text "-e", text "e", text "A"]
  [⟨.set argv (.pipe (text "x\n")), around, fun _ => none, fun _ => .connected (.noReply true (some sampleTurn))⟩,
    ⟨.get argv, around, fun _ => none, fun _ => .connected (.replies sampleTurn)⟩]

theorem commands_explained_sample :
    (runCommands commandChannel (loadOnly importedText importedTree) sampleCommands sampleStart).1.map
      (fun result => result.toOption) = [none, some (text "x\n")] ∧
    ExplainsAll sampleStart.map (sampleCommands.map (Invocation.demand (loadOnly importedText importedTree)))
      (runCommands commandChannel (loadOnly importedText importedTree) sampleCommands sampleStart).1
      (runCommands commandChannel (loadOnly importedText importedTree) sampleCommands sampleStart).2.map := by
  have hline : commandChannel.json.DumpsOneLine := fun _ reply hdump =>
    (by decide : ∀ entry ∈ commandTable, newline ∉ entry.1) _ (tableOf_dump hdump).1
  have hok : (okResponse commandChannel.json).isOk = true := by decide +kernel
  exact ⟨by decide +kernel, commands_explained (tableOf_parseUndoesDump _) hline
    (Prog.except_exists_of_isOk hok) _ _ _⟩

end Secretov
