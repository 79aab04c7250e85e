import Secretov.Import
import Secretov.ManifestPath
import Secretov.StoreRuns

/-! What the checks of an import make sure of, whatever the requests find. -/

namespace Secretov

def Target.key (target : Target) (var : Bytes) : Bytes :=
  target.env ++ slash :: (target.located.project ++ slash :: var)

theorem Target.key_injective (target : Target) : Function.Injective target.key := by
  intro var var' h
  simpa [Target.key] using h

/-! The new text of the manifest. -/

section

variable {lines lines' : List Bytes} {first last indent step : Nat} {key : Bytes} {block : Block}

theorem length_insertLines (lines : List Bytes) (point : Nat) (added : List Bytes) :
    lines.length ≤ (insertLines lines point added).length := by
  have hlength : lines.length = (lines.take point).length + (lines.drop point).length := by
    rw [← List.length_append, List.take_append_drop]
  simp only [insertLines, List.length_append]
  omega

theorem ensureBlock_length (h : ensureBlock lines first last indent step key = .ok (lines', block)) :
    lines.length ≤ lines'.length := by
  obtain ⟨found, -, h⟩ := Prog.except_bind_eq_ok.mp h
  cases found with
  | some keyLine =>
    obtain ⟨rfl, -⟩ := Prod.mk.inj (Except.ok.inj h)
    exact le_rfl
  | none =>
    obtain ⟨rfl, -⟩ := Prod.mk.inj (Except.ok.inj h)
    exact length_insertLines ..

theorem joinLines_ne_nil (h : lines ≠ []) : joinLines lines ≠ [] := by
  obtain ⟨line, rest, rfl⟩ := List.exists_cons_of_ne_nil h
  simp [joinLines]

theorem editManifest_ne_nil {contents project env out : Bytes} {nameToVar : KeyValues}
    (h : editManifest contents project env nameToVar = .ok out) : out ≠ [] := by
  obtain ⟨_, -, h⟩ := Prog.except_bind_eq_ok.mp h
  obtain ⟨_, -, h⟩ := Prog.except_bind_eq_ok.mp h
  obtain ⟨⟨lines₁, envRoot⟩, h₁, h⟩ := Prog.except_bind_eq_ok.mp h
  obtain ⟨⟨lines₂, envBlock⟩, h₂, h⟩ := Prog.except_bind_eq_ok.mp h
  obtain ⟨⟨lines₃, secrets⟩, h₃, h⟩ := Prog.except_bind_eq_ok.mp h
  obtain ⟨added, -, h⟩ := Prog.except_bind_eq_ok.mp h
  obtain rfl := Except.ok.inj h
  have hstart : 0 < (if splitLines contents = [] then freshLines project else splitLines contents).length := by
    split_ifs with hempty
    · exact Nat.zero_lt_succ _
    · exact List.length_pos_of_ne_nil hempty
  have hlength₁ := ensureBlock_length h₁
  have hlength₂ := ensureBlock_length h₂
  have hlength₃ := ensureBlock_length h₃
  have hlength₄ := length_insertLines lines₃
    (insertPoint lines₃ (secrets.keyLine + 1) secrets.last secrets.entryIndent) added
  exact joinLines_ne_nil (List.ne_nil_of_length_pos (by omega))

end

/-- What a manifest says of the imported variables of an environment. -/
def NamesSecrets (yaml : YamlCpp) (contents project env : Bytes) (nameToVar : KeyValues) : Prop :=
  ∀ path, ∃ m entries, parseManifest yaml contents path = .ok m ∧ m.project = project ∧
    m.envs[env]? = some entries ∧
    ∀ pair ∈ nameToVar, ∃ e, entries.find? (·.name = pair.1) = some e ∧ e.envVar = pair.2 ∧
      e.path = env ++ slash :: (project ++ slash :: pair.1)

theorem checkEntry_ok {entries : List SecretEntry} {project env : Bytes} {pair : Bytes × Bytes}
    (h : checkEntry entries project env pair = .ok ()) : ∃ e, entries.find? (·.name = pair.1) = some e ∧
      e.envVar = pair.2 ∧ e.path = env ++ slash :: (project ++ slash :: pair.1) := by
  unfold checkEntry at h
  cases hfound : entries.find? (·.name = pair.1) with
  | none =>
    rw [hfound] at h
    cases h
  | some e =>
    rw [hfound] at h
    obtain ⟨key, hkey, h⟩ := Prog.except_bind_eq_ok.mp h
    have hsame := Prog.throwIf_eq_ok h
    rw [(scopedKey_eq_ok hkey).2.2.2] at hsame
    push Not at hsame
    exact ⟨e, rfl, hsame⟩

theorem manifestWithEntries_ok {yaml : YamlCpp} {contents project env out : Bytes} {nameToVar : KeyValues}
    (h : manifestWithEntries yaml contents project env nameToVar = .ok out) :
    out ≠ [] ∧ NamesSecrets yaml out project env nameToVar := by
  obtain ⟨out', hedit, h⟩ := Prog.except_bind_eq_ok.mp h
  obtain ⟨check, hcheck, h⟩ := Prog.except_bind_eq_ok.mp h
  obtain ⟨_, hproject, h⟩ := Prog.except_bind_eq_ok.mp h
  have hproject := Prog.throwIf_eq_ok hproject
  rw [not_not] at hproject
  cases hentries : check.envs[env]? with
  | none =>
    rw [hentries] at h
    cases h
  | some entries =>
    rw [hentries] at h
    obtain ⟨_, hall, h⟩ := Prog.except_bind_eq_ok.mp h
    obtain rfl := Except.ok.inj h
    refine ⟨editManifest_ne_nil hedit, fun path => ?_⟩
    obtain ⟨m, hm, found, rfl⟩ := (parseManifest_agree out' _ path).of_ok hcheck
    exact ⟨_, entries, hm, hproject, hentries, fun pair hpair =>
      checkEntry_ok (Prog.except_forM_eq_ok hall pair hpair)⟩

section

variable {yaml : YamlCpp} {args : ImportArgs} {around : Surroundings} {files : ManifestFiles} {c : Channel}

theorem loadLocated_text {located : Located} (h : loadLocated yaml args around files = .ok located) :
    located.manifestText = [] ∨ files located.writePath = some located.manifestText := by
  obtain ⟨manifestPath, -, h⟩ := Prog.except_bind_eq_ok.mp h
  obtain ⟨exists_, -, h⟩ := Prog.except_bind_eq_ok.mp h
  split_ifs at h
  · obtain rfl := Except.ok.inj h
    exact .inl rfl
  · obtain ⟨manifestText, htext, h⟩ := Prog.except_bind_eq_ok.mp h
    obtain ⟨manifest, -, h⟩ := Prog.except_bind_eq_ok.mp h
    obtain ⟨_, -, h⟩ := Prog.except_bind_eq_ok.mp h
    obtain ⟨_, -, h⟩ := Prog.except_bind_eq_ok.mp h
    obtain ⟨writePath, hwrite, h⟩ := Prog.except_bind_eq_ok.mp h
    obtain rfl := Except.ok.inj h
    obtain ⟨real, hreal, htext⟩ := Prog.except_bind_eq_ok.mp htext
    obtain ⟨_, -, htext⟩ := Prog.except_bind_eq_ok.mp htext
    obtain rfl : real = writePath := Except.ok.inj (hreal.symm.trans hwrite)
    cases hfile : files real with
    | none =>
      rw [hfile] at htext
      cases htext
    | some contents =>
      rw [hfile] at htext
      obtain rfl := Except.ok.inj htext
      exact .inr rfl

/-- The target is what the input says. -/
structure Targets (yaml : YamlCpp) (args : ImportArgs) (around : Surroundings) (files : ManifestFiles)
    (target : Target) :
    Prop where
  located : loadLocated yaml args around files = .ok target.located
  env : resolveEnv args around target.located.manifest = .ok target.env
  pairs : ∃ contents, around.readFileString args.file = .ok contents ∧ (parseDotenv contents).1 = .ok target.pairs

theorem importTarget_ok {target : Target} (h : importTarget yaml args around files = .ok target) :
    Targets yaml args around files target := by
  obtain ⟨located, hlocated, h⟩ := Prog.except_bind_eq_ok.mp h
  obtain ⟨env, henv, h⟩ := Prog.except_bind_eq_ok.mp h
  obtain ⟨contents, hcontents, h⟩ := Prog.except_bind_eq_ok.mp h
  obtain ⟨pairs, hpairs, h⟩ := Prog.except_bind_eq_ok.mp h
  obtain ⟨_, -, h⟩ := Prog.except_bind_eq_ok.mp h
  obtain ⟨_, -, h⟩ := Prog.except_bind_eq_ok.mp h
  obtain rfl := Except.ok.inj h
  exact ⟨Prog.mapError_eq_ok hlocated, Prog.mapError_eq_ok henv, contents, Prog.mapError_eq_ok hcontents,
    Prog.mapError_eq_ok hpairs⟩

theorem Targets.nodup {target : Target} (h : Targets yaml args around files target) :
    (target.pairs.map Prod.fst).Nodup := by
  obtain ⟨contents, -, hpairs⟩ := h.pairs
  exact (parseDotenvLines_sound hpairs).2.1

theorem foldlM_collisions {target : Target} {existing : Scope} {pairs : KeyValues}
    {collisions collisions' : List Bytes} (h : pairs.foldlM (fun collisions pair => do
      let key ← scopedKey target.env target.located.project pair.1
      return if key ∈ existing then collisions ++ [key] else collisions) collisions = .ok collisions') :
    (∀ key ∈ collisions, key ∈ collisions') ∧
      ∀ pair ∈ pairs, target.key pair.1 ∈ existing → target.key pair.1 ∈ collisions' := by
  induction pairs generalizing collisions with
  | nil =>
    obtain rfl := Except.ok.inj h
    exact ⟨fun _ hkey => hkey, nofun⟩
  | cons pair pairs ih =>
    rw [List.foldlM_cons] at h
    obtain ⟨next, hnext, h⟩ := Prog.except_bind_eq_ok.mp h
    obtain ⟨key, hkey, hnext⟩ := Prog.except_bind_eq_ok.mp hnext
    obtain rfl : key = target.key pair.1 := (scopedKey_eq_ok hkey).2.2.2
    obtain rfl := Except.ok.inj hnext
    obtain ⟨hkept, hall⟩ := ih h
    constructor
    · intro k hk
      apply hkept
      split_ifs
      · exact List.mem_append_left _ hk
      · exact hk
    · refine List.forall_mem_cons.mpr ⟨fun hexists => hkept _ ?_, hall⟩
      rw [if_pos hexists]
      exact List.mem_append_right _ (List.mem_singleton.mpr rfl)

/-- The set request of a pair is one that the client sends. -/
def Sendable (c : Channel) (target : Target) (pair : Bytes × Bytes) : Prop :=
  scopedKey target.env target.located.project pair.1 = .ok (target.key pair.1) ∧
    ∃ line, serializeRequest c.json c.token (text "set") (target.key pair.1) (some pair.2) = .ok line

theorem checkRequest_ok {target : Target} {pair : Bytes × Bytes} (h : checkRequest c target pair = .ok ()) :
    Sendable c target pair := by
  obtain ⟨key, hkey, h⟩ := Prog.except_bind_eq_ok.mp (Prog.mapError_eq_ok h)
  obtain ⟨line, hline, -⟩ := Prog.except_bind_eq_ok.mp h
  have hkey := Prog.mapError_eq_ok hkey
  obtain rfl : key = target.key pair.1 := (scopedKey_eq_ok hkey).2.2.2
  exact ⟨hkey, line, Prog.mapError_eq_ok hline⟩

structure Planned (c : Channel) (yaml : YamlCpp) (args : ImportArgs) (around : Surroundings) (target : Target)
    (existing : Scope) (plan : Plan) : Prop where
  sameTarget : plan.target = target
  sendable : ∀ pair ∈ target.pairs, Sendable c target pair
  unasked : args.overwrite = false → ∀ pair ∈ target.pairs, target.key pair.1 ∉ existing
  newText : manifestWithEntries yaml target.located.manifestText target.located.project target.env
    (target.pairs.map fun pair => (pair.1, pair.1)) = .ok plan.newText
  creatable : plan.newText ≠ target.located.manifestText →
    around.requireCreatableManifestDir target.located.writePath = .ok ()

theorem importPlan_ok {target : Target} {existing : Scope} {plan : Plan}
    (h : importPlan yaml args around c target existing = .ok plan) :
    Planned c yaml args around target existing plan := by
  obtain ⟨collisions, hcollisions, h⟩ := Prog.except_bind_eq_ok.mp h
  obtain ⟨_, hunasked, h⟩ := Prog.except_bind_eq_ok.mp h
  obtain ⟨_, hsendable, h⟩ := Prog.except_bind_eq_ok.mp h
  obtain ⟨newText, hnew, h⟩ := Prog.except_bind_eq_ok.mp h
  have hunasked := Prog.throwIf_eq_ok hunasked
  obtain ⟨rfl, hcreatable⟩ : plan = { target, collisions, newText } ∧
      (newText ≠ target.located.manifestText →
        around.requireCreatableManifestDir target.located.writePath = .ok ()) := by
    split_ifs at h with hchanged
    · obtain ⟨_, hdir, h⟩ := Prog.except_bind_eq_ok.mp h
      exact ⟨(Except.ok.inj h).symm, fun _ => Prog.mapError_eq_ok hdir⟩
    · exact ⟨(Except.ok.inj h).symm, fun hne => absurd hne hchanged⟩
  refine ⟨rfl, fun pair hpair => checkRequest_ok (Prog.except_forM_eq_ok hsendable pair hpair), ?_,
    Prog.mapError_eq_ok hnew, hcreatable⟩
  intro hoverwrite pair hpair hexists
  have hcollides := (foldlM_collisions (Prog.mapError_eq_ok hcollisions)).2 pair hpair hexists
  exact hunasked ⟨List.ne_nil_of_mem hcollides, by rw [hoverwrite]; rfl⟩

/-! What the answer to `getprefix` tells of the store. -/

theorem mem_insertIfNew_foldlM {values : List (Bytes × Json)} {scope scope' : Scope}
    (h : values.foldlM (fun scope item => do
      return scope.insertIfNew item.1 (← item.2.getString)) scope = (.ok scope' : Except Error Scope)) :
    (∀ key ∈ scope, key ∈ scope') ∧ ∀ item ∈ values, item.1 ∈ scope' := by
  induction values generalizing scope with
  | nil =>
    obtain rfl := Except.ok.inj h
    exact ⟨fun _ hkey => hkey, nofun⟩
  | cons item values ih =>
    rw [List.foldlM_cons] at h
    obtain ⟨next, hnext, h⟩ := Prog.except_bind_eq_ok.mp h
    obtain ⟨value, -, hnext⟩ := Prog.except_bind_eq_ok.mp hnext
    obtain rfl := Except.ok.inj hnext
    obtain ⟨hkept, hall⟩ := ih h
    refine ⟨fun key hkey => hkept key (Std.ExtTreeMap.mem_insertIfNew.mpr (.inr hkey)), ?_⟩
    exact List.forall_mem_cons.mpr ⟨hkept _ (Std.ExtTreeMap.mem_insertIfNew.mpr (.inl (by simp))), hall⟩

/-- What is stored under the prefix is in the answer. -/
theorem mem_existing {S : Sodium} {store : Store S} {pre key : Bytes} {entries : List (Bytes × Bytes)}
    {existing : Scope}
    (hentries : store.getPrefix pre = .ok entries)
    (hexisting : valuesOf (.object [(text "ok", .boolean true),
      (text "values", .object (entries.map fun v => (v.1, .string v.2)))]) = .ok existing)
    (hpre : pre <+: key) (hkey : key ∈ store.data) : key ∈ existing := by
  have hanswers : Answers store fun key => store.data[key]? := Store.answers fun _ => rfl
  have hstrings : ∀ key value, pre <+: key → store.data[key]? = some value → ∃ s, value = .string s := by
    intro key value hpre hvalue
    by_contra hother
    push Not at hother
    obtain ⟨e, he⟩ := hanswers.getPrefix_error pre key value hpre hvalue hother
    cases he.symm.trans hentries
  obtain ⟨entries', hentries', -, hmem⟩ := hanswers.getPrefix pre hstrings
  obtain rfl : entries' = entries := Except.ok.inj (hentries'.symm.trans hentries)
  obtain ⟨value, hvalue⟩ := Option.isSome_iff_exists.mp (Std.ExtTreeMap.mem_iff_isSome_getElem?.mp hkey)
  obtain ⟨s, rfl⟩ := hstrings key value hpre hvalue
  have hentry := (hmem key s).mpr ⟨hpre, hvalue⟩
  exact (mem_insertIfNew_foldlM hexisting).2 (key, .string s) (List.mem_map.mpr ⟨(key, s), hentry, rfl⟩)

theorem scopePrefix_ok {target : Target} {pre : Bytes}
    (h : scopePrefix target.env target.located.project = .ok pre) : pre ≠ [] ∧ ∀ var, pre <+: target.key var := by
  obtain ⟨_, -, h⟩ := Prog.except_bind_eq_ok.mp h
  obtain ⟨_, -, h⟩ := Prog.except_bind_eq_ok.mp h
  obtain rfl := Except.ok.inj h
  exact ⟨by simp, fun var => ⟨var, by simp [Target.key]⟩⟩

/-! The two phases of an import, with requests of any kind. -/

variable {σ : Type} {ask : Bytes → Bytes → Option Bytes → Prog ClientError σ Json} {s t : ImportState σ}

theorem refuse_bind {α β : Type} {x : Except Bytes α} {f : α → ImportM σ β} {r : Except ImportError β}
    (h : (refuse x >>= f) s = (r, t)) :
    (t = s ∧ ∃ what, r = .error (.refused what)) ∨ ∃ a, x = .ok a ∧ f a s = (r, t) := by
  cases x with
  | ok a => exact .inr ⟨a, rfl, h⟩
  | error what =>
    obtain ⟨rfl, rfl⟩ := Prod.mk.inj h
    exact .inl ⟨rfl, what, rfl⟩

theorem importRequest_bind {β : Type} {failure : ClientError → ImportError} {op key : Bytes}
    {value : Option Bytes} {f : Json → ImportM σ β} {r : Except ImportError β}
    (h : (importRequest ask failure op key value >>= f) s = (r, t)) :
    (∃ e, (ask op key value s.session).1 = .error e ∧ r = .error (failure e) ∧
      t = { s with session := (ask op key value s.session).2 }) ∨
    ∃ resp, (ask op key value s.session).1 = .ok resp ∧
      f resp { s with session := (ask op key value s.session).2 } = (r, t) := by
  rw [Prog.bind_apply] at h
  unfold importRequest at h
  cases hasked : (ask op key value s.session).1 with
  | error e =>
    simp only [hasked, Except.mapError] at h
    obtain ⟨rfl, rfl⟩ := Prod.mk.inj h
    exact .inl ⟨e, rfl, rfl, rfl⟩
  | ok resp =>
    simp only [hasked, Except.mapError] at h
    exact .inr ⟨resp, rfl, h⟩

/-- The checks ask for the stored keys once, if the input is in order. -/
theorem importChecks_cases {r : Except ImportError Plan} (h : importChecks ask c yaml args around s = (r, t)) :
    (t = s ∧ ∃ what, r = .error (.refused what)) ∨
      ∃ target pre, importTarget yaml args around s.files = .ok target ∧
        scopePrefix target.env target.located.project = .ok pre ∧
        t = { s with session := (ask (text "getprefix") pre none s.session).2 } ∧
        ((∃ what, r = .error (.refused what)) ∨ ∃ resp existing plan,
          (ask (text "getprefix") pre none s.session).1 = .ok resp ∧ valuesOf resp = .ok existing ∧
          importPlan yaml args around c target existing = .ok plan ∧ r = .ok plan) := by
  unfold importChecks at h
  rw [Prog.bind_get] at h
  obtain hrefused | ⟨target, htarget, h⟩ := refuse_bind h
  · exact .inl hrefused
  obtain hrefused | ⟨pre, hpre, h⟩ := refuse_bind h
  · exact .inl hrefused
  refine .inr ⟨target, pre, htarget, Prog.mapError_eq_ok hpre, ?_⟩
  obtain ⟨e, -, rfl, rfl⟩ | ⟨resp, hresp, h⟩ := importRequest_bind h
  · exact ⟨rfl, .inl ⟨_, rfl⟩⟩
  obtain ⟨rfl, hrefused⟩ | ⟨existing, hexisting, h⟩ := refuse_bind h
  · exact ⟨rfl, .inl hrefused⟩
  cases hplan : importPlan yaml args around c target existing with
  | error what =>
    rw [hplan] at h
    obtain ⟨rfl, rfl⟩ := Prod.mk.inj h
    exact ⟨rfl, .inl ⟨what, rfl⟩⟩
  | ok plan =>
    rw [hplan] at h
    obtain ⟨rfl, rfl⟩ := Prod.mk.inj h
    exact ⟨rfl, .inr ⟨resp, existing, plan, hresp, Prog.mapError_eq_ok hexisting, hplan, rfl⟩⟩

/-- A pair whose request is sendable fails at its request only. -/
theorem storePair_cases {target : Target} {pair : Bytes × Bytes} (hpair : Sendable c target pair)
    {stored : List Bytes}
    {r : Except ImportError (List Bytes)} (h : storePair ask target stored pair s = (r, t)) :
    t = { s with session := (ask (text "set") (target.key pair.1) (some pair.2) s.session).2 } ∧
      match (ask (text "set") (target.key pair.1) (some pair.2) s.session).1 with
      | .error e => r = .error (.set pair.1 e stored)
      | .ok _ => r = .ok (stored ++ [target.key pair.1]) := by
  unfold storePair at h
  rw [hpair.1] at h
  obtain ⟨e, he, rfl, rfl⟩ | ⟨resp, hresp, h⟩ := importRequest_bind h
  · rw [he]
    exact ⟨rfl, rfl⟩
  · obtain ⟨rfl, rfl⟩ := Prod.mk.inj h
    rw [hresp]
    exact ⟨rfl, rfl⟩

/-- Once the pairs are stored, or one is not, there are no requests any more. -/
theorem cmdImport_session {r : Except ImportError Imported} (h : cmdImport ask c yaml args around s = (r, t)) :
    (∃ e, importChecks ask c yaml args around s = (.error e, t)) ∨
      ∃ plan u stored v, importChecks ask c yaml args around s = (.ok plan, u) ∧
        plan.target.pairs.foldlM (storePair ask plan.target) [] u = (stored, v) ∧ t.session = v.session := by
  rw [cmdImport, Prog.bind_apply] at h
  rcases hchecks : importChecks ask c yaml args around s with ⟨e | plan, u⟩
  · rw [hchecks] at h
    obtain ⟨-, rfl⟩ := Prod.mk.inj h
    exact .inl ⟨e, rfl⟩
  rw [hchecks] at h
  dsimp only at h
  rw [Prog.bind_apply] at h
  rcases hpairs : plan.target.pairs.foldlM (storePair ask plan.target) [] u with ⟨stored, v⟩
  refine .inr ⟨plan, u, stored, v, rfl, hpairs, ?_⟩
  rw [hpairs] at h
  cases stored with
  | error e =>
    obtain ⟨-, rfl⟩ := Prod.mk.inj h
    rfl
  | ok keys =>
    dsimp only at h
    rw [Prog.bind_apply] at h
    rcases hwrite : (if plan.newText ≠ plan.target.located.manifestText then
      writeManifest around plan.target.located.writePath plan.newText else pure ⟨⟩ : ImportM σ PUnit) v with
        ⟨written, x⟩
    have hx : x.session = v.session := by
      split_ifs at hwrite
      · unfold writeManifest at hwrite
        cases hfails : around.writeFails plan.target.located.writePath with
        | some what =>
          rw [hfails] at hwrite
          obtain ⟨-, rfl⟩ := Prod.mk.inj hwrite
          rfl
        | none =>
          rw [hfails] at hwrite
          obtain ⟨-, rfl⟩ := Prod.mk.inj hwrite
          rfl
      · obtain ⟨-, rfl⟩ := Prod.mk.inj hwrite
        rfl
    rw [hwrite] at h
    cases written with
    | error e =>
      obtain ⟨-, rfl⟩ := Prod.mk.inj h
      exact hx
    | ok _ =>
      obtain ⟨rfl, -⟩ | ⟨pre, -, h⟩ := refuse_bind h
      · exact hx
      · obtain ⟨-, rfl⟩ := Prod.mk.inj h
        exact hx

end

end Secretov
