import Secretov.EditedEnvs

/-! What the edit of a manifest means: the manifest that is parsed afterwards, beside
the one that was parsed before. -/

namespace Secretov

variable {yaml : YamlCpp}

/-! Whole manifests. -/

/-- What an edit is for: the entries of the names that the environment lacks, at the end of its own. -/
def Manifest.withEntries (m : Manifest) (env : Bytes) (nameToVar : KeyValues) : Manifest :=
  let old := (m.envs[env]?).getD []
  let fresh := nameToVar.filter fun pair => pair.1 ∉ old.map SecretEntry.name
  { m with
    envs := m.envs.insert env (old ++ fresh.map (newEntry env m.project))
    vars := m.vars.insert env ((m.vars[env]?).getD []) }

/-- The first key that is taken for the environment is another one, which stands for
itself and lacks a name. -/
def Misdirected (env : Bytes) (nameToVar : KeyValues) (envPairs : List (Yaml × Yaml)) : Prop :=
  ∃ key body, firstTaken env envPairs = some (.scalar key, body) ∧ key ≠ env ∧
    (envPairs.countP fun pair => pair.1.isKey key) = 1 ∧ untaken (body.pairsAt (text "secrets")) nameToVar ≠ []

section

variable {m m' : Manifest} {path env : Bytes} {nameToVar : KeyValues}

theorem ext_envs (hpath : m'.path = m.path) (hproject : m'.project = m.project)
    (hbackend : m'.backend = m.backend) (hdefault : m'.defaultEnv = m.defaultEnv)
    (hsame : ∀ x : Bytes, m'.envs[x]? = m.envs[x]? ∧ m'.vars[x]? = m.vars[x]?) :
    m' = m := by
  have henvs : m'.envs = m.envs := Std.ExtTreeMap.ext_getElem? fun {x} => (hsame x).1
  have hvars : m'.vars = m.vars := Std.ExtTreeMap.ext_getElem? fun {x} => (hsame x).2
  obtain ⟨path, project, backend, defaultEnv, envs, vars⟩ := m
  dsimp only at *
  subst hpath hproject hbackend hdefault henvs hvars
  rfl

theorem withEntries_self {entries : List SecretEntry} {plain : KeyValues} (hentries : m.envs[env]? = some entries)
    (hplain : m.vars[env]? = some plain) (hnamed : ∀ pair ∈ nameToVar, ∃ e ∈ entries, e.name = pair.1) :
    m.withEntries env nameToVar = m := by
  have hfresh : (nameToVar.filter fun pair => pair.1 ∉ entries.map SecretEntry.name) = [] := by
    refine List.filter_eq_nil_iff.mpr fun pair hpair => ?_
    obtain ⟨e, he, hname⟩ := hnamed pair hpair
    have hmem : pair.1 ∈ entries.map SecretEntry.name := hname ▸ List.mem_map_of_mem he
    simpa using hmem
  refine ext_envs rfl rfl rfl rfl fun x => ?_
  simp only [Manifest.withEntries, hentries, hplain, Option.getD_some, hfresh, List.map_nil, List.append_nil,
    Std.ExtTreeMap.getElem?_insert]
  by_cases hx : compare env x = .eq
  · obtain rfl := Std.LawfulEqCmp.eq_of_compare hx
    simp [hentries, hplain]
  · simp [hx]

theorem eq_withEntries (hpath : m'.path = m.path) (hproject : m'.project = m.project)
    (hbackend : m'.backend = m.backend) (hdefault : m'.defaultEnv = m.defaultEnv)
    (hother : ∀ x ≠ env, m'.envs[x]? = m.envs[x]? ∧ m'.vars[x]? = m.vars[x]?) {old : List SecretEntry}
    (hold : (m.envs[env]?).getD [] = old)
    (hentries : m'.envs[env]? = some (old ++
      (nameToVar.filter fun pair => pair.1 ∉ old.map SecretEntry.name).map (newEntry env m.project)))
    (hplain : m'.vars[env]? = some ((m.vars[env]?).getD [])) : m' = m.withEntries env nameToVar := by
  subst hold
  refine ext_envs hpath hproject hbackend hdefault fun x => ?_
  simp only [Manifest.withEntries, Std.ExtTreeMap.getElem?_insert]
  by_cases hx : compare env x = .eq
  · obtain rfl := Std.LawfulEqCmp.eq_of_compare hx
    simp [hentries, hplain]
  · have hne : x ≠ env := by
      rintro rfl
      exact hx Std.ReflCmp.compare_self
    simp [hx, hother x hne]

theorem readBack_readBack (s : Bytes) : readBack (readBack s) = readBack s := by
  unfold readBack
  split_ifs with hs hnull
  · rfl
  · rfl
  · rfl

/-- The entries that come of an edit, where all names are there after it. -/
theorem newEntries_eq {secrets : List (Yaml × Yaml)} {old : List SecretEntry} {project : Bytes}
    (hscalar : ∀ secret ∈ secrets, ∃ key, secret.1 = .scalar key)
    (hold : secrets.map (keyText yaml) = old.map fun e => some e.name)
    (hnamed : ∀ pair ∈ nameToVar, ∃ e ∈ old ++ (untaken secrets nameToVar).map fun pair =>
      newEntry env project (readBack pair.1, pair.2), e.name = pair.1) :
    (untaken secrets nameToVar).map (fun pair => newEntry env project (readBack pair.1, pair.2)) =
      (nameToVar.filter fun pair => pair.1 ∉ old.map SecretEntry.name).map (newEntry env project) := by
  have hkey : ∀ pair ∈ untaken secrets nameToVar, pair.1 ∉ old.map SecretEntry.name := by
    intro pair hpair hmem
    obtain ⟨e, he, hname⟩ := List.mem_map.mp hmem
    have hmem : some pair.1 ∈ secrets.map (keyText yaml) := hold ▸ List.mem_map.mpr ⟨e, he, by rw [hname]⟩
    obtain ⟨secret, hsecret, hsame⟩ := List.mem_map.mp hmem
    obtain ⟨key, hkey⟩ := hscalar secret hsecret
    obtain rfl : key = pair.1 := by simpa [keyText, hkey, YamlCpp.asString, Except.toOption] using hsame
    have huntaken := List.all_eq_true.mp (List.mem_filter.mp hpair).2 secret hsecret
    rw [hkey, takenFor_scalar.mpr (.inl rfl)] at huntaken
    cases huntaken
  have hread : ∀ pair ∈ untaken secrets nameToVar, readBack pair.1 = pair.1 := by
    intro pair hpair
    obtain ⟨e, he, hname⟩ := hnamed pair (List.mem_filter.mp hpair).1
    rcases List.mem_append.mp he with he | he
    · exact absurd (List.mem_map.mpr ⟨e, he, hname⟩) (hkey pair hpair)
    · obtain ⟨other, -, rfl⟩ := List.mem_map.mp he
      have hname : readBack other.1 = pair.1 := hname
      rw [← hname, readBack_readBack]
  have hfresh : untaken secrets nameToVar = nameToVar.filter fun pair => pair.1 ∉ old.map SecretEntry.name := by
    refine List.filter_congr fun pair hpair => ?_
    by_cases huntaken : pair ∈ untaken secrets nameToVar
    · rw [(List.mem_filter.mp huntaken).2]
      simpa using hkey pair huntaken
    · have hmem : pair.1 ∈ old.map SecretEntry.name := by
        obtain ⟨e, he, hname⟩ := hnamed pair hpair
        rcases List.mem_append.mp he with he | he
        · exact List.mem_map.mpr ⟨e, he, hname⟩
        · -- a new entry of the name would be one of a pair that no key is taken for
          obtain ⟨other, hother, rfl⟩ := List.mem_map.mp he
          have hsame : other.1 = pair.1 := (hread other hother).symm.trans hname
          have hall := (List.mem_filter.mp hother).2
          rw [hsame] at hall
          exact absurd (List.mem_filter.mpr ⟨hpair, hall⟩) huntaken
      have hall : (secrets.all fun secret => !takenFor pair.1 secret.1) = false := by
        rw [← Bool.not_eq_true]
        exact fun hall => huntaken (List.mem_filter.mpr ⟨hpair, hall⟩)
      rw [hall]
      simpa using hmem
  rw [← hfresh]
  refine List.map_congr_left fun pair hpair => ?_
  rw [hread pair hpair]

/-! One environment of several. -/

theorem envNode?_append_cons (before after : List (Yaml × Yaml)) (pair : Yaml × Yaml) (x : Bytes) :
    envNode? yaml (before ++ pair :: after) x =
      (envNode? yaml after x).or
        (if keyText yaml pair = some x then some pair.2 else envNode? yaml before x) := by
  have hreverse : (before ++ pair :: after).reverse = after.reverse ++ pair :: before.reverse := by simp
  rw [envNode?, hreverse, List.find?_append, List.find?_cons]
  by_cases hkey : keyText yaml pair = some x
  · cases hafter : after.reverse.find? (fun pair => keyText yaml pair = some x) <;> simp [envNode?, hafter, hkey]
  · cases hafter : after.reverse.find? (fun pair => keyText yaml pair = some x) <;> simp [envNode?, hafter, hkey]

theorem Holds.congr {envPairs envPairs' : List (Yaml × Yaml)} {x : Bytes} (h : Holds yaml path envPairs m x)
    (h' : Holds yaml path envPairs' m' x) (hproject : m'.project = m.project) (hbackend : m'.backend = m.backend)
    (hnode : envNode? yaml envPairs' x = envNode? yaml envPairs x) :
    m'.envs[x]? = m.envs[x]? ∧ m'.vars[x]? = m.vars[x]? := by
  unfold Holds at h h'
  rw [hnode] at h'
  cases hfound : envNode? yaml envPairs x with
  | none =>
    rw [hfound] at h h'
    exact ⟨h'.1.trans h.1.symm, h'.2.trans h.2.symm⟩
  | some node =>
    rw [hfound] at h h'
    obtain ⟨parsed, hparsed, hentries, hplain⟩ := h
    obtain ⟨parsed', hparsed', hentries', hplain'⟩ := h'
    rw [hproject, hbackend] at hparsed'
    obtain rfl := Except.ok.inj (hparsed.symm.trans hparsed')
    exact ⟨hentries'.trans hentries.symm, hplain'.trans hplain.symm⟩

/-- What an edit leaves of the fields that no environment is in. -/
structure SameHead (m m' : Manifest) : Prop where
  path : m'.path = m.path
  project : m'.project = m.project
  backend : m'.backend = m.backend
  defaultEnv : m'.defaultEnv = m.defaultEnv

theorem sameHead_of_edited {pairs pairs' envs envs' : List (Yaml × Yaml)}
    (h : parseDocument yaml (.map pairs) path = .ok m) (h' : parseDocument yaml (.map pairs') path = .ok m')
    (hedited : Edited (text "env") envs envs' pairs pairs') :
    SameHead m m' ∧ (Yaml.map pairs').pairsAt (text "env") = envs' := by
  have hvetted := parseDocument_eq_ok h
  obtain ⟨hpath, hbackend, hdefault, -⟩ := parseDocument_walk h
  obtain ⟨hpath', hbackend', hdefault', -⟩ := parseDocument_walk h'
  obtain ⟨-, hnew, hother⟩ := hedited.find? hvetted.keys.top takenFor_top
  rw [hother _ (by decide)] at hbackend' hdefault'
  have hproject := (parseDocument_eq_ok h').project.2
  rw [hother _ (by decide), hvetted.project.2] at hproject
  refine ⟨⟨hpath'.trans hpath.symm, (Yaml.scalar.inj (Option.some.inj hproject)).symm,
    (Except.ok.inj (hbackend.symm.trans hbackend')).symm,
    (Except.ok.inj (hdefault.symm.trans hdefault')).symm⟩, ?_⟩
  rw [Yaml.pairsAt, hnew, Option.map_some, Option.getD_some, blockNode_pairs]

theorem envNode?_eq_none {envPairs : List (Yaml × Yaml)} {x : Bytes}
    (hscalar : ∀ pair ∈ envPairs, ∃ key, pair.1 = .scalar key) :
    envNode? yaml envPairs x = none ↔ ∀ pair ∈ envPairs, pair.1.isKey x = false := by
  rw [envNode?, Option.map_eq_none_iff, List.find?_eq_none]
  simp only [List.mem_reverse, decide_eq_true_eq]
  refine forall₂_congr fun pair hpair => ?_
  obtain ⟨key, hkey⟩ := hscalar pair hpair
  simp [keyText, hkey, Yaml.isKey_scalar, YamlCpp.asString, Except.toOption]

/-- The key that the entries go under stands for itself where it is there only once. -/
theorem countP_isKey_eq_one {before after : List (Yaml × Yaml)} {key : Bytes} {node : Yaml}
    (hscalar : ∀ pair ∈ before ++ (.scalar key, node) :: after, ∃ key, pair.1 = .scalar key)
    (hbefore : ∀ pair ∈ before, takenFor env pair.1 = false) (htaken : takenFor env (.scalar key) = true) :
    ((before ++ (.scalar key, node) :: after).countP fun pair => pair.1.isKey key) = 1 ↔
      envNode? yaml after key = none := by
  have hnone : (before.countP fun pair => pair.1.isKey key) = 0 := by
    refine List.countP_eq_zero.mpr fun pair hpair hkey => ?_
    obtain ⟨s, hs⟩ := hscalar pair (by simp [hpair])
    rw [hs, Yaml.isKey_scalar, decide_eq_true_eq] at hkey
    have hfree := hbefore pair hpair
    rw [hs, hkey, htaken] at hfree
    cases hfree
  rw [envNode?_eq_none fun pair hpair => hscalar pair (by simp [hpair]), List.countP_append, hnone,
    List.countP_cons_of_pos (by simp [Yaml.isKey_scalar])]
  simp

end

/-! The edit of one environment. -/

section

variable {m m' : Manifest} {path env : Bytes} {nameToVar : KeyValues} {envs envs' body body' : List (Yaml × Yaml)}
  {entries : List SecretEntry}

/-- Two manifests that are parsed from environments before an edit and after, the names
all there in the second. -/
structure EnvsEdited (yaml : YamlCpp) (path env : Bytes) (nameToVar : KeyValues)
    (envs envs' body body' : List (Yaml × Yaml)) (m m' : Manifest) (entries : List SecretEntry) : Prop where
  head : SameHead m m'
  isLocal : m.backend.type = .local
  holds : ∀ x, Holds yaml path envs m x
  holds' : ∀ x, Holds yaml path envs' m' x
  scalar : ∀ pair ∈ envs, ∃ key, pair.1 = .scalar key
  scalarSecrets : ∀ secret ∈ takenPairs (text "secrets") body, ∃ key, secret.1 = .scalar key
  known : KeysWithin [text "vars", text "secrets", text "region", text "project"] (.map body)
  edited : Edited (text "secrets") (takenPairs (text "secrets") body) (takenPairs (text "secrets") body ++
    (untaken (takenPairs (text "secrets") body) nameToVar).map entryPair) body body'
  listed : m'.envs[env]? = some entries
  named : ∀ pair ∈ nameToVar, ∃ e ∈ entries, e.name = pair.1

namespace EnvsEdited

variable (h : EnvsEdited yaml path env nameToVar envs envs' body body' m m' entries)

include h

theorem congr {x : Bytes} (hnode : envNode? yaml envs' x = envNode? yaml envs x) :
    m'.envs[x]? = m.envs[x]? ∧ m'.vars[x]? = m.vars[x]? :=
  (h.holds x).congr (h.holds' x) h.head.project h.head.backend hnode

/-- Where the environment has its names already, nothing is left to do. -/
theorem withEntries_self (hnode : envNode? yaml envs' env = envNode? yaml envs env) :
    m.withEntries env nameToVar = m := by
  have hentries := (h.congr hnode).1.symm.trans h.listed
  have hholds := h.holds env
  unfold Holds at hholds
  cases hfound : envNode? yaml envs env with
  | none =>
    rw [hfound] at hholds
    rw [hholds.1] at hentries
    cases hentries
  | some node =>
    rw [hfound] at hholds
    obtain ⟨parsed, -, -, hplain⟩ := hholds
    exact Secretov.withEntries_self hentries hplain h.named

/-- One environment's old parse and its new one. -/
theorem parsed {x : Bytes} {old new : List SecretEntry × KeyValues}
    (hold : parseEnv yaml path m.project m.backend x (blockNode body) = .ok old)
    (hnew : parseEnv yaml path m'.project m'.backend x (blockNode body') = .ok new) :
    (takenPairs (text "secrets") body).map (keyText yaml) = old.1.map (fun e => some e.name) ∧
      new = (old.1 ++ (untaken (takenPairs (text "secrets") body) nameToVar).map
        (fun pair => newEntry x m.project (readBack pair.1, pair.2)), old.2) := by
  rw [h.head.project, h.head.backend] at hnew
  exact parseEnv_edited h.isLocal h.known h.edited hold hnew

/-- The edit of the environment itself does what it is for. -/
theorem intended {old new : List SecretEntry × KeyValues}
    (hold : parseEnv yaml path m.project m.backend env (blockNode body) = .ok old)
    (hnew : parseEnv yaml path m'.project m'.backend env (blockNode body') = .ok new)
    (holdEntries : (m.envs[env]?).getD [] = old.1) (holdVars : (m.vars[env]?).getD [] = old.2)
    (hnewEntries : m'.envs[env]? = some new.1) (hnewVars : m'.vars[env]? = some new.2)
    (hother : ∀ x ≠ env, envNode? yaml envs' x = envNode? yaml envs x) : m' = m.withEntries env nameToVar := by
  obtain ⟨hnames, rfl⟩ := h.parsed hold hnew
  have hsame := h.listed.symm.trans hnewEntries
  have hnamed := h.named
  rw [Option.some.inj hsame] at hnamed
  dsimp only at hnewEntries hnewVars
  rw [newEntries_eq h.scalarSecrets hnames hnamed] at hnewEntries
  refine eq_withEntries h.head.path h.head.project h.head.backend h.head.defaultEnv
    (fun x hx => h.congr (hother x hx)) holdEntries hnewEntries ?_
  rw [hnewVars, holdVars]

theorem added (hnone : ∀ pair ∈ envs, takenFor env pair.1 = false) (hbody : body = [])
    (henvs : envs' = envs ++ [(.scalar env, blockNode body')]) : m' = m.withEntries env nameToVar := by
  subst hbody henvs
  have hnode : ∀ x, envNode? yaml (envs ++ [(.scalar env, blockNode body')]) x =
      if some env = some x then some (blockNode body') else envNode? yaml envs x := by
    intro x
    rw [envNode?_append_cons]
    rfl
  have habsent : envNode? yaml envs env = none :=
    (envNode?_eq_none h.scalar).mpr fun pair hpair => isKey_of_not_taken (hnone pair hpair)
  have hholds := h.holds env
  have hholds' := h.holds' env
  unfold Holds at hholds hholds'
  rw [habsent] at hholds
  rw [hnode env, if_pos rfl] at hholds'
  obtain ⟨new, hnew, hnewEntries, hnewVars⟩ := hholds'
  have hold : parseEnv yaml path m.project m.backend env (blockNode []) = .ok ([], []) := rfl
  refine h.intended hold hnew (by rw [hholds.1]; rfl) (by rw [hholds.2]; rfl) hnewEntries hnewVars ?_
  intro x hx
  rw [hnode x, if_neg (fun hsame => hx (Option.some.inj hsame).symm)]

/-- Under another key that stands for itself, an edit is right only if it adds nothing. -/
theorem misdirected_iff {key : Bytes} (hfirst : firstTaken env envs = some (.scalar key, blockNode body))
    (hkey : key ≠ env) (honce : (envs.countP fun pair => pair.1.isKey key) = 1) :
    Misdirected env nameToVar envs ↔ untaken (takenPairs (text "secrets") body) nameToVar ≠ [] := by
  have hsecrets : (blockNode body).pairsAt (text "secrets") = takenPairs (text "secrets") body := by
    have hknown : KeysWithin _ (blockNode body) := fun pair hpair => h.known pair (blockNode_pairs body ▸ hpair)
    rw [pairsAt_eq_takenPairs hknown takenFor_envKey, blockNode_pairs]
  refine ⟨?_, fun hfresh => ⟨key, _, hfirst, hkey, honce, hsecrets ▸ hfresh⟩⟩
  rintro ⟨other, node, hsame, -, -, hfresh⟩
  rw [hfirst] at hsame
  obtain ⟨-, rfl⟩ := Prod.mk.inj (Option.some.inj hsame)
  exact hsecrets ▸ hfresh

/-- Where a later key of the same text stands for the environment, the edit changes nothing that is parsed. -/
theorem overridden {key : Bytes} (hfirst : firstTaken env envs = some (.scalar key, blockNode body))
    (honce : (envs.countP fun pair => pair.1.isKey key) ≠ 1)
    (hsame : ∀ x, envNode? yaml envs' x = envNode? yaml envs x) :
    m' = m.withEntries env nameToVar ↔ ¬Misdirected env nameToVar envs := by
  rw [h.withEntries_self (hsame env)]
  refine iff_of_true ?_ ?_
  · exact ext_envs h.head.path h.head.project h.head.backend h.head.defaultEnv fun x => h.congr (hsame x)
  · rintro ⟨other, body, hother, -, hcount, -⟩
    rw [hfirst] at hother
    obtain rfl := Yaml.scalar.inj (Prod.mk.inj (Option.some.inj hother)).1
    exact honce hcount

/-- The edit of the first environment that is taken for the one that is asked for. -/
theorem found {before after : List (Yaml × Yaml)} {key : Bytes}
    (hbefore : ∀ pair ∈ before, takenFor env pair.1 = false) (htaken : takenFor env (.scalar key) = true)
    (henvs : envs = before ++ (.scalar key, blockNode body) :: after)
    (henvs' : envs' = before ++ (.scalar key, blockNode body') :: after) :
    m' = m.withEntries env nameToVar ↔ ¬Misdirected env nameToVar envs := by
  have hnode : ∀ x, envNode? yaml envs x = (envNode? yaml after x).or
      (if some key = some x then some (blockNode body) else envNode? yaml before x) := by
    intro x
    rw [henvs, envNode?_append_cons]
    rfl
  have hnode' : ∀ x, envNode? yaml envs' x = (envNode? yaml after x).or
      (if some key = some x then some (blockNode body') else envNode? yaml before x) := by
    intro x
    rw [henvs', envNode?_append_cons]
    rfl
  have hother : ∀ x ≠ key, envNode? yaml envs' x = envNode? yaml envs x := by
    intro x hx
    have hne : some key ≠ some x := fun hsame => hx (Option.some.inj hsame).symm
    rw [hnode x, hnode' x, if_neg hne, if_neg hne]
  have hfirst : firstTaken env envs = some (.scalar key, blockNode body) := by
    rw [henvs]
    exact firstTaken_eq hbefore htaken
  have hcount : (envs.countP fun pair => pair.1.isKey key) = 1 ↔ envNode? yaml after key = none := by
    have hscalar := h.scalar
    rw [henvs] at hscalar ⊢
    exact countP_isKey_eq_one hscalar hbefore htaken
  by_cases hlast : envNode? yaml after key = none
  · have hholds := h.holds key
    have hholds' := h.holds' key
    unfold Holds at hholds hholds'
    rw [hnode key, hlast, if_pos rfl, Option.none_or] at hholds
    rw [hnode' key, hlast, if_pos rfl, Option.none_or] at hholds'
    obtain ⟨old, hold, hentries, hvars⟩ := hholds
    obtain ⟨new, hnew, hentries', hvars'⟩ := hholds'
    by_cases hkey : key = env
    · subst hkey
      refine iff_of_true ?_ ?_
      · exact h.intended hold hnew (by rw [hentries]; rfl) (by rw [hvars]; rfl) hentries' hvars' hother
      · rintro ⟨other, body, hsame, hne, -⟩
        rw [hfirst] at hsame
        exact hne (Yaml.scalar.inj (Prod.mk.inj (Option.some.inj hsame)).1).symm
    · rw [h.withEntries_self (hother env (Ne.symm hkey)), h.misdirected_iff hfirst hkey (hcount.mpr hlast),
        not_not]
      obtain ⟨-, rfl⟩ := h.parsed hold hnew
      refine ⟨?_, fun hfresh => ?_⟩
      · rintro rfl
        have hentries := Option.some.inj (hentries.symm.trans hentries')
        simpa using hentries
      · refine ext_envs h.head.path h.head.project h.head.backend h.head.defaultEnv fun x => ?_
        by_cases hx : x = key
        · subst hx
          rw [hentries', hvars', hentries, hvars, hfresh]
          simp
        · exact h.congr (hother x hx)
  · refine h.overridden hfirst (fun honce => hlast (hcount.mp honce)) fun x => ?_
    by_cases hx : x = key
    · subst hx
      obtain ⟨node, hsome⟩ := Option.ne_none_iff_exists'.mp hlast
      rw [hnode x, hnode' x, hsome]
      rfl
    · exact hother x hx

end EnvsEdited

end

/-- The edit of a mapping, parsed before and after. -/
theorem parsed_edited {pairs pairs' : List (Yaml × Yaml)}
    {path env : Bytes} {nameToVar : KeyValues} {m m' : Manifest}
    {entries : List SecretEntry} {plain : PlainScalars} {indent : Nat} {lines : List Bytes}
    (hreads : (blockOutline plain.verbatim).Reads indent lines pairs)
    (hedited : MappingEdited env nameToVar pairs pairs') (h : parseDocument yaml (.map pairs) path = .ok m)
    (h' : parseDocument yaml (.map pairs') path = .ok m') (hlocal : m.backend.type = .local)
    (hentries : m'.envs[env]? = some entries) (hnamed : ∀ pair ∈ nameToVar, ∃ e ∈ entries, e.name = pair.1) :
    m' = m.withEntries env nameToVar ↔ ¬Misdirected env nameToVar ((Yaml.map pairs).pairsAt (text "env")) := by
  obtain ⟨body', envs', hsecrets, henv, hroot⟩ := hedited
  obtain ⟨hhead, henvs'⟩ := sameHead_of_edited h h' hroot
  have hvetted := parseDocument_eq_ok h
  have henvs : (Yaml.map pairs).pairsAt (text "env") = takenPairs (text "env") pairs :=
    pairsAt_eq_takenPairs hvetted.keys.top takenFor_top
  obtain ⟨_, _, hreads⟩ := reads_takenPairs hreads (text "env")
  have hscalar := scalar_key hreads
  obtain ⟨_, _, hreads⟩ := reads_takenPairs hreads env
  obtain ⟨_, _, hreads⟩ := reads_takenPairs hreads (text "secrets")
  have hknown : KeysWithin [text "vars", text "secrets", text "region", text "project"]
      (.map (takenPairs env (takenPairs (text "env") pairs))) := by
    rw [takenPairs]
    cases hfirst : firstTaken env (takenPairs (text "env") pairs) with
    | none =>
      intro pair hpair
      cases hpair
    | some pair => exact hvetted.keys.env pair (henvs ▸ List.mem_of_find?_eq_some hfirst)
  have hboth : EnvsEdited yaml path env nameToVar ((Yaml.map pairs).pairsAt (text "env")) envs'
      (takenPairs env (takenPairs (text "env") pairs)) body' m m' entries :=
    ⟨hhead, hlocal, parseDocument_holds h, henvs' ▸ parseDocument_holds h', henvs ▸ hscalar, scalar_key hreads,
      hknown, hsecrets, hentries, hnamed⟩
  rw [← henvs] at henv hboth
  generalize takenPairs env ((Yaml.map pairs).pairsAt (text "env")) = body at henv hboth
  generalize (Yaml.map pairs).pairsAt (text "env") = envs at henv hboth
  cases henv with
  | @found before after k hbefore htaken =>
    obtain ⟨key, rfl⟩ := hboth.scalar (k, blockNode body) (by simp)
    exact hboth.found hbefore htaken rfl rfl
  | added hnone hbody =>
    refine iff_of_true (hboth.added hnone hbody rfl) ?_
    rintro ⟨key, node, hfirst, -⟩
    rw [firstTaken_eq_none hnone] at hfirst
    cases hfirst

/-- An edit of a manifest in block style adds the entries of the missing names at the end
of the environment, and changes nothing else, unless it is misdirected. -/
theorem manifestWithEntries_intended_iff {plain : PlainScalars} (hplain : plain.WellShaped)
    {contents path project env out : Bytes} {nameToVar : KeyValues} {pairs : List (Yaml × Yaml)} {m : Manifest}
    (hcontents : ReadsBlocks yaml plain contents) (hout : ReadsBlocks yaml plain out)
    (hstyle : BlockStyle plain.verbatim contents pairs) (hparsed : parseManifest yaml contents path = .ok m)
    (hlocal : m.backend.type = .local) (henv : plain.verbatim.key env)
    (hnames : ∀ pair ∈ nameToVar, Identifier pair.1 ∧ Identifier pair.2)
    (h : manifestWithEntries yaml contents project env nameToVar = .ok out) :
    parseManifest yaml out path = .ok (m.withEntries env nameToVar) ↔
      ¬Misdirected env nameToVar ((Yaml.map pairs).pairsAt (text "env")) := by
  obtain ⟨doc, hload, hdoc⟩ := parseManifest_eq_ok.mp hparsed
  obtain rfl : doc = .map pairs := Except.ok.inj (hload.symm.trans (hcontents pairs hstyle.of_verbatim))
  obtain ⟨pairs', hstyle', hedited⟩ := editManifest_blockStyle hplain henv hnames hstyle
    (extendable_of_parsed hdoc) (manifestWithEntries_edit h)
  obtain ⟨m', entries, hparsed', -, hentries, hnamed⟩ := (manifestWithEntries_ok h).2 path
  obtain ⟨doc', hload', hdoc'⟩ := parseManifest_eq_ok.mp hparsed'
  obtain rfl : doc' = .map pairs' := Except.ok.inj (hload'.symm.trans (hout pairs' hstyle'))
  rw [hparsed', Except.ok.injEq]
  refine parsed_edited hstyle.reads hedited hdoc hdoc' hlocal hentries fun pair hpair => ?_
  obtain ⟨e, hfind, -⟩ := hnamed pair hpair
  exact ⟨e, List.mem_of_find?_eq_some hfind, by simpa using List.find?_some hfind⟩

/-- The scalars of the right shapes. -/
def shapedScalars : PlainScalars := ⟨KeyForm, ValueForm⟩

/-- A parser that knows block style. -/
noncomputable def blockYaml : YamlCpp where
  load contents := open Classical in
    if h : ∃ pairs, BlockStyle shapedScalars contents pairs then .ok (.map h.choose) else .error (text "bad file")
  badConversion _ := text "bad conversion"

theorem shapedScalars_wellShaped : shapedScalars.WellShaped :=
  ⟨fun _ h => h, fun _ h => h, fun _ h => ⟨h.keyForm, h.keyForm.1⟩⟩

theorem readsBlocks_blockYaml (contents : Bytes) : ReadsBlocks blockYaml shapedScalars contents := by
  intro pairs h
  have hexists : ∃ pairs, BlockStyle shapedScalars contents pairs := ⟨pairs, h⟩
  rw [blockYaml]
  dsimp only
  rw [dif_pos hexists, hexists.choose_spec.unique shapedScalars_wellShaped h]

theorem parseManifest_of_load {contents path : Bytes} {doc : Yaml} {α : Type} {f : Manifest → α} {a : α}
    (hload : yaml.load contents = .ok doc) (h : (parseDocument yaml doc path).toOption.map f = some a) :
    ∃ m, parseManifest yaml contents path = .ok m ∧ f m = a := by
  cases hdoc : parseDocument yaml doc path with
  | error e => simp [hdoc, Except.toOption] at h
  | ok m => exact ⟨m, parseManifest_eq_ok.mpr ⟨doc, hload, hdoc⟩, by simpa [hdoc, Except.toOption] using h⟩

/-- An environment `dev:#x` before `dev`. -/
def longerText : Bytes :=
  text "name: p\nenv:\n  dev:#x:\n  dev:\n    secrets:\n" ++
    text "      A:\n        env_var_name: UV_PUBLISH_TOKEN\n"

def longerTextEdited : Bytes :=
  text "name: p\nenv:\n  dev:#x:\n    secrets:\n" ++ text "      A:\n        env_var_name: UV_PUBLISH_TOKEN\n" ++
    text "  dev:\n    secrets:\n" ++ text "      A:\n        env_var_name: UV_PUBLISH_TOKEN\n"

def sampleSecrets : Yaml :=
  .map [(.ofText "secrets", .map [(.ofText "A", .map [(.ofText "env_var_name", .ofText "UV_PUBLISH_TOKEN")])])]

/-- The mapping with the environment `dev:#x` as it is given. -/
def longerPairs (first : Yaml) : List (Yaml × Yaml) :=
  [(.ofText "name", .ofText "p"), (.ofText "env",
    .map [(.ofText "dev:#x", first), (.ofText "dev", sampleSecrets)])]

def sampleLines : List Bytes :=
  [headLine 4 (text "secrets") [], headLine 6 (text "A") [],
    leafLine 8 (text "env_var_name") (text "UV_PUBLISH_TOKEN") []]

theorem verbatim_of_form {s : Bytes} (h : KeyForm s ∧ s ∉ nullTexts) :
    shapedScalars.verbatim.key s ∧ shapedScalars.verbatim.value s :=
  ⟨h, h.1.1, h.2⟩

theorem reads_sampleLines : (blockOutline shapedScalars.verbatim).Reads 4 sampleLines sampleSecrets.pairs := by
  have hkeys := shapedScalars_wellShaped.verbatim_key
  have hsecrets := verbatim_of_form (show KeyForm (text "secrets") ∧ _ by decide)
  have hname := verbatim_of_form (show KeyForm (text "A") ∧ _ by decide)
  have hvar := verbatim_of_form (show KeyForm (text "env_var_name") ∧ _ by decide)
  have hvalue := verbatim_of_form (show KeyForm (text "UV_PUBLISH_TOKEN") ∧ _ by decide)
  have hleaf := reads_leafLine hkeys hvar.1 hvalue.2 (.inl rfl) (.nil : (blockOutline _).Reads 8 [] [])
  have hentry := reads_headLine hkeys hname.1 (.inl rfl) (by decide : 6 < 8) hleaf .nil
  exact reads_headLine hkeys hsecrets.1 (.inl rfl) (by decide : 4 < 6) hentry .nil

theorem reads_longer {body : List Bytes} {first : List (Yaml × Yaml)}
    (hbody : (blockOutline shapedScalars.verbatim).Reads 4 body first) :
    (blockOutline shapedScalars.verbatim).Reads 0
      (leafLine 0 (text "name") (text "p") [] :: headLine 0 (text "env") [] :: headLine 2 (text "dev:#x") [] ::
        (body ++ headLine 2 (text "dev") [] :: sampleLines)) (longerPairs (blockNode first)) := by
  have hkeys := shapedScalars_wellShaped.verbatim_key
  have hname := verbatim_of_form (show KeyForm (text "name") ∧ _ by decide)
  have hvalue := verbatim_of_form (show KeyForm (text "p") ∧ _ by decide)
  have henv := verbatim_of_form (show KeyForm (text "env") ∧ _ by decide)
  have hlonger := verbatim_of_form (show KeyForm (text "dev:#x") ∧ _ by decide)
  have hdev := verbatim_of_form (show KeyForm (text "dev") ∧ _ by decide)
  have hlast := reads_headLine hkeys hdev.1 (.inl rfl) (by decide : 2 < 4) reads_sampleLines .nil
  have henvs := reads_headLine hkeys hlonger.1 (.inl rfl) (by decide : 2 < 4) hbody hlast
  have htop := reads_headLine hkeys henv.1 (.inl rfl) (by decide : 0 < 2) henvs .nil
  have hall := reads_leafLine hkeys hname.1 hvalue.2 (.inl rfl) htop
  simp only [List.append_nil] at hall
  exact hall

theorem longerText_blockStyle : BlockStyle shapedScalars.verbatim longerText (longerPairs .null) := by
  refine ⟨?_, nofun, by decide⟩
  have hlines : (splitLines longerText).filter isContent = leafLine 0 (text "name") (text "p") [] ::
      headLine 0 (text "env") [] :: headLine 2 (text "dev:#x") [] ::
        ([] ++ headLine 2 (text "dev") [] :: sampleLines) := by decide
  rw [hlines]
  exact reads_longer .nil

theorem longerTextEdited_blockStyle :
    BlockStyle shapedScalars.verbatim longerTextEdited (longerPairs sampleSecrets) := by
  refine ⟨?_, nofun, by decide⟩
  have hlines : (splitLines longerTextEdited).filter isContent = leafLine 0 (text "name") (text "p") [] ::
      headLine 0 (text "env") [] :: headLine 2 (text "dev:#x") [] ::
        (sampleLines ++ headLine 2 (text "dev") [] :: sampleLines) := by decide
  rw [hlines]
  exact reads_longer reads_sampleLines

theorem longer_loads : blockYaml.load longerText = .ok (.map (longerPairs .null)) ∧
    blockYaml.load longerTextEdited = .ok (.map (longerPairs sampleSecrets)) :=
  ⟨readsBlocks_blockYaml _ _ longerText_blockStyle.of_verbatim,
    readsBlocks_blockYaml _ _ longerTextEdited_blockStyle.of_verbatim⟩

theorem longer_parsed : ∃ m, parseManifest blockYaml longerText (text "m") = .ok m ∧
    (m.backend.type, m.envs[text "dev:#x"]?) = (.local, some []) :=
  parseManifest_of_load longer_loads.1 (by decide)

theorem longer_parsed_edited (path : Bytes) : ∃ m, parseManifest blockYaml longerTextEdited path = .ok m ∧
    (m.project, m.envs[text "dev:#x"]?, m.envs[text "dev"]?) =
      (text "p", some [newEntry (text "dev:#x") (text "p") (text "A", text "UV_PUBLISH_TOKEN")],
        some [newEntry (text "dev") (text "p") (text "A", text "UV_PUBLISH_TOKEN")]) :=
  parseManifest_of_load longer_loads.2 (by rfl)

/-- The edit that is asked for `dev` goes to `dev:#x`. -/
theorem longer_edited : manifestWithEntries blockYaml longerText (text "p") (text "dev")
    [(text "A", text "UV_PUBLISH_TOKEN")] = .ok longerTextEdited := by
  have hedit : editManifest longerText (text "p") (text "dev") [(text "A", text "UV_PUBLISH_TOKEN")] =
      .ok longerTextEdited := by decide
  obtain ⟨m, hparsed, hm⟩ := longer_parsed_edited (text "<edited manifest>")
  simp only [Prod.mk.injEq] at hm
  obtain ⟨hproject, -, hentries⟩ := hm
  simp only [manifestWithEntries, hedit, hparsed, hproject, hentries, bind, Except.bind]
  rfl

theorem longer_identifiers : ∀ pair ∈ [(text "A", text "UV_PUBLISH_TOKEN")], Identifier pair.1 ∧
    Identifier pair.2 :=
  List.forall_mem_singleton.mpr ⟨isIdentifier_iff.mp (by decide), isIdentifier_iff.mp (by decide)⟩

theorem manifestWithEntries_intended_iff_longer : ∃ m, parseManifest blockYaml longerText (text "m") = .ok m ∧
    (parseManifest blockYaml longerTextEdited (text "m") =
        .ok (m.withEntries (text "dev") [(text "A", text "UV_PUBLISH_TOKEN")]) ↔
      ¬Misdirected (text "dev") [(text "A", text "UV_PUBLISH_TOKEN")]
        ((Yaml.map (longerPairs .null)).pairsAt (text "env"))) := by
  obtain ⟨m, hparsed, hm⟩ := longer_parsed
  have hdev := verbatim_of_form (show KeyForm (text "dev") ∧ _ by decide)
  exact ⟨m, hparsed, manifestWithEntries_intended_iff shapedScalars_wellShaped (readsBlocks_blockYaml _)
    (readsBlocks_blockYaml _) longerText_blockStyle hparsed (Prod.mk.inj hm).1 hdev.1 longer_identifiers
    longer_edited⟩

theorem not_intended_longer : ¬∀ (yaml : YamlCpp) (plain : PlainScalars) (contents path project env out : Bytes)
    (nameToVar : KeyValues) (pairs : List (Yaml × Yaml)) (m : Manifest), plain.WellShaped →
      (∀ text, ReadsBlocks yaml plain text) → BlockStyle plain.verbatim contents pairs →
      parseManifest yaml contents path = .ok m →
      m.backend.type = .local → plain.verbatim.key env → nameToVar.Nodup →
      (∀ pair ∈ nameToVar, Identifier pair.1 ∧ Identifier pair.2) →
      manifestWithEntries yaml contents project env nameToVar = .ok out →
        parseManifest yaml out path = .ok (m.withEntries env nameToVar) := by
  intro h
  obtain ⟨m, hparsed, hm⟩ := longer_parsed
  obtain ⟨hlocal, hempty⟩ := Prod.mk.inj hm
  obtain ⟨m', hparsed', hm'⟩ := longer_parsed_edited (text "m")
  have hdev := verbatim_of_form (show KeyForm (text "dev") ∧ _ by decide)
  have hsame := h _ _ _ _ _ _ _ _ _ m shapedScalars_wellShaped readsBlocks_blockYaml longerText_blockStyle hparsed
    hlocal hdev.1 (List.nodup_singleton _) longer_identifiers longer_edited
  obtain rfl := Except.ok.inj (hparsed'.symm.trans hsame)
  have hentry := (Prod.mk.inj (Prod.mk.inj hm').2).1
  have hne : ¬compare (text "dev") (text "dev:#x") = .eq := by decide
  rw [Manifest.withEntries, Std.ExtTreeMap.getElem?_insert, if_neg hne, hempty] at hentry
  cases hentry

end Secretov
