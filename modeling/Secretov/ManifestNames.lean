import Mathlib.Data.List.Induction
import Mathlib.Data.List.Nodup
import Mathlib.Data.Option.Basic
import Secretov.ManifestTrust

/-! Whether a manifest defines a variable twice. -/

namespace Secretov

/-- Every name that an environment defines. -/
def Manifest.namesFor (m : Manifest) (env : Bytes) : List Bytes :=
  ((m.vars[env]?).getD []).map Prod.fst ++ ((m.envs[env]?).getD []).map SecretEntry.envVar

section

variable (yaml : YamlCpp)

def keyText (pair : Yaml × Yaml) : Option Bytes := (yaml.asString pair.1).toOption

/-- The mapping of an environment: the last one under its name. -/
def envNode? (envPairs : List (Yaml × Yaml)) (env : Bytes) : Option Yaml :=
  (envPairs.reverse.find? fun pair => keyText yaml pair = some env).map Prod.snd

/-- No key twice under `vars`, no `env_var_name` twice under `secrets`. -/
def NamesOnce (envNode : Yaml) : Prop :=
  ((envNode.pairsAt (text "vars")).map (keyText yaml)).Nodup ∧
    ((envNode.pairsAt (text "secrets")).map fun secret => secret.2.find? (text "env_var_name")).Nodup

end

variable {yaml : YamlCpp}

theorem parseEnvVars_names {envNode : Yaml} {path env : Bytes} {plain : KeyValues}
    (h : parseEnvVars yaml (envNode.find? (text "vars")) path env = .ok plain) :
    (envNode.pairsAt (text "vars")).map (keyText yaml) = plain.map fun var => some var.1 := by
  have hname : ∀ pair var, parseEnvVar yaml path env pair = .ok var → keyText yaml pair = some var.1 := by
    intro pair var hvar
    obtain ⟨varName, hkey, hvar⟩ := Prog.except_bind_eq_ok.mp hvar
    obtain ⟨_, -, hvar⟩ := Prog.except_bind_eq_ok.mp hvar
    obtain ⟨_, -, hvar⟩ := Prog.except_bind_eq_ok.mp hvar
    obtain ⟨value, -, hvar⟩ := Prog.except_bind_eq_ok.mp hvar
    obtain rfl := Except.ok.inj hvar
    simp [keyText, hkey, Except.toOption]
  unfold parseEnvVars at h
  unfold Yaml.pairsAt
  split at h
  · rename_i hnode
    obtain rfl := Except.ok.inj h
    simp [hnode]
  · rename_i hnode
    obtain rfl := Except.ok.inj h
    simp [hnode, Yaml.pairs]
  · rename_i pairs hnode
    simpa [hnode, Yaml.pairs] using Prog.except_mapM_map hname h
  · cases h

theorem parseEnvSecrets_names {envNode : Yaml} {path env project location : Bytes} {type : BackendType}
    {entries : List SecretEntry}
    (h : parseEnvSecrets yaml (envNode.find? (text "secrets")) path env project type location = .ok entries) :
    ((envNode.pairsAt (text "secrets")).map fun secret => secret.2.find? (text "env_var_name")) =
      entries.map fun e => some (.scalar e.envVar) := by
  have hname : ∀ secret e, parseEnvSecret yaml path env project type location secret = .ok e →
      secret.2.find? (text "env_var_name") = some (.scalar e.envVar) :=
    fun _ _ he => parseEnvSecret_envVar he
  unfold parseEnvSecrets at h
  unfold Yaml.pairsAt
  split at h
  · rename_i hnode
    obtain rfl := Except.ok.inj h
    simp [hnode]
  · rename_i hnode
    obtain rfl := Except.ok.inj h
    simp [hnode, Yaml.pairs]
  · rename_i pairs hnode
    simpa [hnode, Yaml.pairs] using Prog.except_mapM_map hname h
  · cases h

theorem parseEnv_namesOnce {path project env : Bytes} {backend : BackendConfig} {envNode : Yaml}
    {parsed : List SecretEntry × KeyValues} (h : parseEnv yaml path project backend env envNode = .ok parsed) :
    (parsed.2.map Prod.fst ++ parsed.1.map SecretEntry.envVar).Nodup ↔ NamesOnce yaml envNode := by
  unfold parseEnv at h
  split_ifs at h with hnull
  · obtain rfl := Except.ok.inj h
    rw [Yaml.isNull_iff.mp hnull]
    simp [NamesOnce, Yaml.pairsAt, Yaml.find?, Yaml.pairs]
  · obtain ⟨_, -, h⟩ := Prog.except_bind_eq_ok.mp h
    obtain ⟨_, -, h⟩ := Prog.except_bind_eq_ok.mp h
    obtain ⟨location, -, h⟩ := Prog.except_bind_eq_ok.mp h
    obtain ⟨entries, hentries, h⟩ := Prog.except_bind_eq_ok.mp h
    obtain ⟨plain, hplain, h⟩ := Prog.except_bind_eq_ok.mp h
    obtain ⟨_, htwice, h⟩ := Prog.except_bind_eq_ok.mp h
    obtain rfl := Except.ok.inj h
    have hdisjoint : ∀ name ∈ plain.map Prod.fst, ∀ name' ∈ entries.map SecretEntry.envVar, name ≠ name' := by
      rw [List.forall_mem_map]
      intro var hvar
      rw [List.forall_mem_map]
      intro e he
      exact (refuseSetTwice_eq_ok htwice var hvar e he).symm
    rw [NamesOnce, parseEnvVars_names hplain, parseEnvSecrets_names hentries, List.nodup_append]
    have hvars : (plain.map fun var => some var.1).Nodup ↔ (plain.map Prod.fst).Nodup := by
      rw [← List.nodup_map_iff (Option.some_injective Bytes), List.map_map]
      rfl
    have hentryVars : (entries.map fun e => some (Yaml.scalar e.envVar)).Nodup ↔
        (entries.map SecretEntry.envVar).Nodup := by
      have hinjective : Function.Injective fun s => some (Yaml.scalar s) := fun _ _ h =>
        Yaml.scalar.inj (Option.some.inj h)
      rw [← List.nodup_map_iff hinjective, List.map_map]
      rfl
    rw [hvars, hentryVars]
    exact ⟨fun h => ⟨h.1, h.2.1⟩, fun h => ⟨h.1, h.2, hdisjoint⟩⟩

/-- What a manifest holds of an environment. -/
def Holds (yaml : YamlCpp) (path : Bytes) (envPairs : List (Yaml × Yaml)) (m : Manifest) (env : Bytes) : Prop :=
  match envNode? yaml envPairs env with
  | none => m.envs[env]? = none ∧ m.vars[env]? = none
  | some envNode => ∃ parsed, parseEnv yaml path m.project m.backend env envNode = .ok parsed ∧
      m.envs[env]? = some parsed.1 ∧ m.vars[env]? = some parsed.2

theorem addEnv_holds {path : Bytes} {envPairs : List (Yaml × Yaml)} {m m' : Manifest} {pair : Yaml × Yaml}
    (hm : ∀ env, Holds yaml path envPairs m env) (h : addEnv yaml path m pair = .ok m') (env : Bytes) :
    Holds yaml path (envPairs ++ [pair]) m' env := by
  obtain ⟨name, hname, h⟩ := Prog.except_bind_eq_ok.mp h
  obtain ⟨_, -, h⟩ := Prog.except_bind_eq_ok.mp h
  obtain ⟨parsed, hparsed, h⟩ := Prog.except_bind_eq_ok.mp h
  obtain rfl := Except.ok.inj h
  have hkey : keyText yaml pair = some name := by simp [keyText, hname, Except.toOption]
  have hnode : envNode? yaml (envPairs ++ [pair]) env =
      if name = env then some pair.2 else envNode? yaml envPairs env := by
    rw [envNode?, List.reverse_append, List.reverse_singleton, List.singleton_append, List.find?_cons, hkey]
    by_cases hsame : name = env
    · simp [hsame]
    · simp [hsame, envNode?]
  unfold Holds
  rw [hnode]
  by_cases hsame : name = env
  · subst hsame
    rw [if_pos rfl]
    exact ⟨parsed, hparsed, by simp, by simp⟩
  · have hcompare : ¬compare name env = .eq := mt Std.LawfulEqCmp.eq_of_compare hsame
    rw [if_neg hsame, Std.ExtTreeMap.getElem?_insert, Std.ExtTreeMap.getElem?_insert, if_neg hcompare,
      if_neg hcompare]
    exact hm env

theorem foldlM_addEnv_holds {path : Bytes} {envPairs : List (Yaml × Yaml)} {m m' : Manifest}
    (hempty : ∀ env, Holds yaml path [] m env) (h : envPairs.foldlM (addEnv yaml path) m = .ok m') (env : Bytes) :
    Holds yaml path envPairs m' env := by
  induction envPairs using List.reverseRecOn generalizing m' env with
  | nil =>
    obtain rfl := Except.ok.inj h
    exact hempty env
  | append_singleton envPairs pair ih =>
    rw [List.foldlM_append] at h
    obtain ⟨middle, hmiddle, h⟩ := Prog.except_bind_eq_ok.mp h
    obtain ⟨last, hlast, h⟩ := Prog.except_bind_eq_ok.mp h
    obtain rfl := Except.ok.inj h
    exact addEnv_holds (fun env => ih hmiddle env) hlast env

theorem parseDocument_holds {doc : Yaml} {path : Bytes} {m : Manifest} (h : parseDocument yaml doc path = .ok m)
    (env : Bytes) : Holds yaml path (doc.pairsAt (text "env")) m env := by
  obtain ⟨_, -, h⟩ := Prog.except_bind_eq_ok.mp h
  obtain ⟨_, -, h⟩ := Prog.except_bind_eq_ok.mp h
  split at h
  · cases h
  obtain ⟨project, -, h⟩ := Prog.except_bind_eq_ok.mp h
  obtain ⟨_, -, h⟩ := Prog.except_bind_eq_ok.mp h
  obtain ⟨backend, -, h⟩ := Prog.except_bind_eq_ok.mp h
  obtain ⟨defaultEnv, -, h⟩ := Prog.except_bind_eq_ok.mp h
  split at h
  · rename_i hnone
    obtain rfl := Except.ok.inj h
    simp [Holds, envNode?, Yaml.pairsAt, hnone]
  · rename_i hnull
    obtain rfl := Except.ok.inj h
    simp [Holds, envNode?, Yaml.pairsAt, hnull, Yaml.pairs]
  · rename_i pairs hpairs
    have henvPairs : doc.pairsAt (text "env") = pairs := by simp [Yaml.pairsAt, hpairs, Yaml.pairs]
    rw [henvPairs]
    exact foldlM_addEnv_holds (fun env => by simp [Holds, envNode?]) h env
  · cases h

/-- No name of an environment is defined twice, if and only if the document names none
twice under `vars`, and none twice under `secrets`. -/
theorem names_nodup_iff {contents path : Bytes} {m : Manifest} {doc : Yaml} (hload : yaml.load contents = .ok doc)
    (h : parseManifest yaml contents path = .ok m) :
    (∀ env, (m.namesFor env).Nodup) ↔
      ∀ env envNode, envNode? yaml (doc.pairsAt (text "env")) env = some envNode → NamesOnce yaml envNode := by
  obtain ⟨doc', hload', hdoc⟩ := parseManifest_eq_ok.mp h
  obtain rfl : doc' = doc := Except.ok.inj (hload'.symm.trans hload)
  refine forall_congr' fun env => ?_
  have hholds := parseDocument_holds hdoc env
  unfold Holds at hholds
  cases hnode : envNode? yaml (doc'.pairsAt (text "env")) env with
  | none =>
    rw [hnode] at hholds
    simp [Manifest.namesFor, hholds]
  | some envNode =>
    rw [hnode] at hholds
    obtain ⟨parsed, hparsed, hentries, hplain⟩ := hholds
    rw [Manifest.namesFor, hentries, hplain, Option.getD_some, Option.getD_some, parseEnv_namesOnce hparsed]
    simp

def twiceText : Bytes :=
  text "name: shop\nenv:\n  dev:\n    secrets:\n" ++
    text "      old:\n        env_var_name: UV_PUBLISH_TOKEN\n" ++
    text "      new:\n        env_var_name: UV_PUBLISH_TOKEN\n"

def twiceTree : Yaml :=
  .map [(.ofText "name", .ofText "shop"), (.ofText "env", .map [(.ofText "dev", .map [(.ofText "secrets", .map [
    (.ofText "old", .map [(.ofText "env_var_name", .ofText "UV_PUBLISH_TOKEN")]),
    (.ofText "new", .map [(.ofText "env_var_name", .ofText "UV_PUBLISH_TOKEN")])])])])]

theorem twice_names : (parseManifest (loadOnly twiceText twiceTree) twiceText (text "m")).toOption.map
    (·.namesFor (text "dev")) = some [text "UV_PUBLISH_TOKEN", text "UV_PUBLISH_TOKEN"] := by decide

theorem twice_accepted : ∃ m, parseManifest (loadOnly twiceText twiceTree) twiceText (text "m") = .ok m ∧
    m.namesFor (text "dev") = [text "UV_PUBLISH_TOKEN", text "UV_PUBLISH_TOKEN"] := by
  have hnames := twice_names
  cases hparsed : parseManifest (loadOnly twiceText twiceTree) twiceText (text "m") with
  | error e => simp [hparsed, Except.toOption] at hnames
  | ok m => exact ⟨m, rfl, by simpa [hparsed, Except.toOption] using hnames⟩

theorem names_nodup_iff_twice : ∃ m, parseManifest (loadOnly twiceText twiceTree) twiceText (text "m") = .ok m ∧
    ((∀ env, (m.namesFor env).Nodup) ↔ ∀ env envNode,
      envNode? (loadOnly twiceText twiceTree) (twiceTree.pairsAt (text "env")) env = some envNode →
        NamesOnce (loadOnly twiceText twiceTree) envNode) := by
  obtain ⟨m, hparsed, -⟩ := twice_accepted
  exact ⟨m, hparsed, names_nodup_iff (loadOnly_load _ _) hparsed⟩

theorem not_names_nodup_twice : ¬∀ (yaml : YamlCpp) (contents path : Bytes) (m : Manifest),
    parseManifest yaml contents path = .ok m → ∀ env, (m.namesFor env).Nodup := by
  intro h
  obtain ⟨m, hparsed, hnames⟩ := twice_accepted
  have hnodup := h _ _ _ m hparsed (text "dev")
  rw [hnames] at hnodup
  exact (List.nodup_cons.mp hnodup).1 (List.mem_singleton_self _)

end Secretov
