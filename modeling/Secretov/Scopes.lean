import Secretov.Import
import Secretov.Lib.PrefixOrder
import Secretov.StoreRuns

/-! Scopes of the local store: the keys of an environment's project, and what a prefix
lookup finds of them (manifest.cpp, store.cpp). -/

namespace Secretov

theorem scopePrefix_eq_ok {env project pre : Bytes} (h : scopePrefix env project = .ok pre) :
    Segment env ∧ Segment project ∧ pre = env ++ slash :: (project ++ [slash]) := by
  obtain ⟨_, henv, h⟩ := Prog.except_bind_eq_ok.mp h
  obtain ⟨_, hproject, h⟩ := Prog.except_bind_eq_ok.mp h
  exact ⟨requireSegment_eq_ok henv, requireSegment_eq_ok hproject, (Except.ok.inj h).symm⟩

/-- The first slash ends the first segment. -/
theorem segment_slash_inj {s t x y : Bytes} (hs : Segment s) (ht : Segment t) :
    s ++ slash :: x = t ++ slash :: y ↔ s = t ∧ x = y := by
  refine ⟨?_, ?_⟩
  · intro h
    -- a longer segment would hold the slash that ends the other
    rcases List.append_eq_append_iff.mp h with ⟨more, rfl, hrest⟩ | ⟨more, rfl, hrest⟩
    · cases more with
      | nil => exact ⟨(List.append_nil _).symm, (List.cons.inj hrest).2⟩
      | cons b more => exact absurd (by simp [(List.cons.inj hrest).1]) ht.2
    · cases more with
      | nil => exact ⟨List.append_nil _, (List.cons.inj hrest).2.symm⟩
      | cons b more => exact absurd (by simp [(List.cons.inj hrest).1]) hs.2
  · rintro ⟨rfl, rfl⟩
    rfl

theorem scopedKey_inj {env project name env' project' name' key : Bytes}
    (h : scopedKey env project name = .ok key)
    (h' : scopedKey env' project' name' = .ok key) : env = env' ∧ project = project' ∧ name = name' := by
  obtain ⟨henv, hproject, -, rfl⟩ := scopedKey_eq_ok h
  obtain ⟨henv', hproject', -, hkey⟩ := scopedKey_eq_ok h'
  obtain ⟨hsame, hrest⟩ := (segment_slash_inj henv henv').mp hkey
  obtain ⟨hsame', hname⟩ := (segment_slash_inj hproject hproject').mp hrest
  exact ⟨hsame, hsame', hname⟩

theorem scopePrefix_isPrefix {env project env' project' name' pre key : Bytes}
    (h : scopePrefix env project = .ok pre) (h' : scopedKey env' project' name' = .ok key) :
    pre <+: key ↔ env = env' ∧ project = project' := by
  obtain ⟨henv, hproject, rfl⟩ := scopePrefix_eq_ok h
  obtain ⟨henv', hproject', -, rfl⟩ := scopedKey_eq_ok h'
  refine ⟨?_, ?_⟩
  · rintro ⟨rest, hrest⟩
    rw [List.append_assoc, List.cons_append, List.append_assoc, List.singleton_append] at hrest
    obtain ⟨hsame, hmore⟩ := (segment_slash_inj henv henv').mp hrest
    obtain ⟨hsame', -⟩ := (segment_slash_inj hproject hproject').mp hmore
    exact ⟨hsame, hsame'⟩
  · rintro ⟨rfl, rfl⟩
    exact ⟨name', by simp⟩

section

variable {S : Sodium}

theorem mem_getPrefix {store : Store S} {pre key value : Bytes} {entries : List (Bytes × Bytes)}
    (h : store.getPrefix pre = .ok entries) :
    (key, value) ∈ entries ↔ pre <+: key ∧ store.data[key]? = some (.string value) := by
  have hanswers : Answers store fun key => store.data[key]? := Store.answers fun _ => rfl
  have hstrings : ∀ key value, pre <+: key → store.data[key]? = some value → ∃ s, value = .string s := by
    intro key value hpre hvalue
    by_contra hno
    obtain ⟨e, he⟩ := hanswers.getPrefix_error pre key value hpre hvalue fun s hs => hno ⟨s, hs⟩
    rw [he] at h
    cases h
  obtain ⟨entries', hentries', -, hmem⟩ := hanswers.getPrefix pre hstrings
  obtain rfl := Except.ok.inj (h.symm.trans hentries')
  exact hmem key value

/-- A prefix lookup reads the keys that start with the prefix only. -/
theorem getPrefix_congr {store store' : Store S} {pre : Bytes}
    (h : ∀ key, pre <+: key → store.data[key]? = store'.data[key]?) :
    store.getPrefix pre = store'.getPrefix pre := by
  have hsame : (store.data.toList.filter fun entry => pre.isPrefixOf entry.1) =
      store'.data.toList.filter fun entry => pre.isPrefixOf entry.1 := by
    refine PrefixOrder.eq_of_pairwise (fun _ _ => Std.OrientedCmp.not_lt_of_lt)
      (Std.ExtTreeMap.ordered_keys_toList.filter _) (Std.ExtTreeMap.ordered_keys_toList.filter _) ?_
    rintro ⟨key, value⟩
    rw [mem_prefix_entries, mem_prefix_entries]
    refine and_congr_right fun hpre => ?_
    rw [h key hpre]
  rw [Store.getPrefix, hsame]
  rfl

variable {F : Format S} {json : Nlohmann} {env : Env S} {key pre : Bytes} {w w' : World F}

theorem getPrefix_set (hpre : ¬pre <+: key) {value : Bytes} {r : Except Error Unit}
    (h : Store.set json env key value w = (r, w')) : w'.store.getPrefix pre = w.store.getPrefix pre := by
  cases r with
  | error e => rw [Store.set_error h]
  | ok u =>
    rw [(Store.set_ok h).1]
    apply getPrefix_congr
    intro other hother
    have hne : key ≠ other := by
      rintro rfl
      exact hpre hother
    dsimp only
    rw [Std.ExtTreeMap.getElem?_insert, if_neg (by rwa [Std.compare_eq_iff_eq])]

theorem getPrefix_remove (hpre : ¬pre <+: key) {r : Except Error Bool}
    (h : Store.remove json env key w = (r, w')) : w'.store.getPrefix pre = w.store.getPrefix pre := by
  cases r with
  | error e => rw [Store.remove_error h]
  | ok removed =>
    rcases Store.remove_ok h with ⟨-, -, rfl⟩ | ⟨-, -, hstore, -⟩
    · rfl
    · rw [hstore]
      apply getPrefix_congr
      intro other hother
      have hne : key ≠ other := by
        rintro rfl
        exact hpre hother
      dsimp only
      rw [Std.ExtTreeMap.getElem?_erase, if_neg (by rwa [Std.compare_eq_iff_eq])]

end

/-- What a lookup of a scope finds, whatever the store holds. -/
structure ScopeLookup {S : Sodium} (store : Store S) (env project pre : Bytes) : Prop where
  answers : (∀ key value, pre <+: key → store.data[key]? = some value → ∃ s, value = .string s) →
    ∃ entries, store.getPrefix pre = .ok entries
  only : ∀ entries, store.getPrefix pre = .ok entries → ∀ env' project' name key value,
    scopedKey env' project' name = .ok key → (key, value) ∈ entries → env' = env ∧ project' = project
  all : ∀ entries, store.getPrefix pre = .ok entries → ∀ name key value,
    scopedKey env project name = .ok key → store.data[key]? = some (.string value) → (key, value) ∈ entries

theorem scopes_isolated :
    (∀ env project name env' project' name' key, scopedKey env project name = .ok key →
      scopedKey env' project' name' = .ok key → env = env' ∧ project = project' ∧ name = name') ∧
    (∀ env project env' project' name' pre key, scopePrefix env project = .ok pre →
      scopedKey env' project' name' = .ok key → (pre <+: key ↔ env = env' ∧ project = project')) ∧
    (∀ (S : Sodium) (store : Store S) env project pre, scopePrefix env project = .ok pre →
      ScopeLookup store env project pre) ∧
    ∀ (S : Sodium) (F : Format S) (json : Nlohmann) (around : Env S) (w : World F),
      ∀ env project pre env' project' name' key, scopePrefix env project = .ok pre →
      scopedKey env' project' name' = .ok key → ¬(env' = env ∧ project' = project) →
        (∀ value, (Store.set json around key value w).2.store.getPrefix pre = w.store.getPrefix pre) ∧
          (Store.remove json around key w).2.store.getPrefix pre = w.store.getPrefix pre := by
  refine ⟨fun _ _ _ _ _ _ _ => scopedKey_inj, fun _ _ _ _ _ _ _ => scopePrefix_isPrefix, ?_, ?_⟩
  · intro S store env project pre hpre
    refine ⟨?_, ?_, ?_⟩
    · intro hstrings
      have hanswers : Answers store fun key => store.data[key]? := Store.answers fun _ => rfl
      obtain ⟨entries, hentries, -⟩ := hanswers.getPrefix pre hstrings
      exact ⟨entries, hentries⟩
    · intro entries hentries env' project' name key value hkey hmem
      obtain ⟨hsame, hsame'⟩ := (scopePrefix_isPrefix hpre hkey).mp ((mem_getPrefix hentries).mp hmem).1
      exact ⟨hsame.symm, hsame'.symm⟩
    · intro entries hentries name key value hkey hvalue
      exact (mem_getPrefix hentries).mpr ⟨(scopePrefix_isPrefix hpre hkey).mpr ⟨rfl, rfl⟩, hvalue⟩
  · intro S F json around w env project pre env' project' name' key hpre hkey hother
    have hnot : ¬pre <+: key := by
      intro hstarts
      obtain ⟨hsame, hsame'⟩ := (scopePrefix_isPrefix hpre hkey).mp hstarts
      exact hother ⟨hsame.symm, hsame'.symm⟩
    exact ⟨fun value => getPrefix_set hnot rfl, getPrefix_remove hnot rfl⟩

end Secretov
