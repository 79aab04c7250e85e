import Mathlib.Data.List.Nodup
import Secretov.KeyTree
import Secretov.TuiSteps

/-! The row that is selected after a save, and after the filter is cleared (tui.cpp). -/

namespace Secretov

/-! `std::sort` puts keys in the order of their bytes. -/

theorem compare_eq_lt_iff (a b : Bytes) : compare a b = .lt ↔ a < b := by
  induction a generalizing b with
  | nil =>
    cases b with
    | nil => exact ⟨nofun, fun h => absurd h (List.not_lt_nil _)⟩
    | cons y b => exact ⟨fun _ => List.nil_lt_cons _ _, fun _ => rfl⟩
  | cons x a ih =>
    cases b with
    | nil => exact ⟨nofun, fun h => absurd h (List.not_lt_nil _)⟩
    | cons y b =>
      rw [List.compare_eq_compareLex, List.compareLex_cons_cons, Ordering.then_eq_lt,
        ← List.compare_eq_compareLex, ih, List.cons_lt_cons_iff, Std.compare_eq_lt,
        Std.LawfulEqOrd.compare_eq_iff_eq]

theorem isLE_compare_iff (a b : Bytes) : (compare a b).isLE = true ↔ a ≤ b := by
  rw [← List.not_lt, ← compare_eq_lt_iff]
  refine ⟨fun hle hgt => ?_, fun hnot => ?_⟩
  · exact Std.OrientedCmp.not_isLE_of_lt hgt hle
  · by_contra hle
    exact hnot (Std.OrientedCmp.lt_of_not_isLE hle)

theorem mergeSort_sorted {keys : List Bytes} (h : keys.Nodup) :
    keys.mergeSort.Pairwise fun a b => compare a b = .lt := by
  have hle : keys.mergeSort.Pairwise fun a b => decide (a ≤ b) = true := by
    apply List.pairwise_mergeSort
    · intro a b c hab hbc
      rw [decide_eq_true_iff, ← isLE_compare_iff] at hab hbc ⊢
      exact Std.TransCmp.isLE_trans hab hbc
    · intro a b
      rw [Bool.or_eq_true, decide_eq_true_iff, decide_eq_true_iff, ← isLE_compare_iff, ← isLE_compare_iff]
      by_cases hab : (compare a b).isLE = true
      · exact Or.inl hab
      · exact Or.inr (by rw [Std.OrientedCmp.lt_of_not_isLE hab]; rfl)
  have hnodup : keys.mergeSort.Nodup := (List.mergeSort_perm keys _).nodup_iff.mpr h
  refine (hle.and hnodup).imp ?_
  rintro a b ⟨hab, hne⟩
  rw [decide_eq_true_iff, ← isLE_compare_iff] at hab
  cases hcompare : compare a b with
  | lt => rfl
  | eq => exact absurd (Std.LawfulEqOrd.eq_of_compare hcompare) hne
  | gt =>
    rw [hcompare] at hab
    cases hab

/-- The keys that `key_name_error` accepts can't be taken for folders. -/
theorem keyNameError_none {key : Bytes} (h : keyNameError key = none) : key ≠ [] ∧ key.getLast? ≠ some slash := by
  unfold keyNameError at h
  split at h
  · cases h
  · rename_i hne
    split at h
    · cases h
    · split at h
      · cases h
      · split at h
        · cases h
        · rename_i hlast
          exact ⟨hne, hlast⟩

theorem folder_shorter {key folder : Bytes} (hname : keyNameError key = none) (h : folder ∈ foldersOf key) :
    folder.length < key.length := by
  obtain ⟨hstarts, hslash⟩ := mem_foldersOf.mp h
  refine lt_of_le_of_ne hstarts.length_le fun hlength => ?_
  rw [hstarts.eq_of_length hlength] at hslash
  exact (keyNameError_none hname).2 hslash

variable {filter : Bytes} {collapsed : Collapsed} {keys : List Bytes} {row : Row}

section

variable (hsorted : keys.Pairwise fun a b => compare a b = .lt) (hnames : ∀ key ∈ keys, keyNameError key = none)

include hsorted hnames

theorem row_eq_of_id {a b : Row} (ha : a ∈ (buildRows filter collapsed keys).rows)
    (hb : b ∈ (buildRows filter collapsed keys).rows) (h : a.id = b.id) : a = b := by
  have hkind : ∀ row ∈ (buildRows filter collapsed keys).rows,
      row = if row.id.getLast? = some slash then folderRow row.id else keyRow row.id := by
    intro row hrow
    obtain ⟨-, key, hkey, -, rfl | ⟨folder, hfolder, rfl⟩⟩ := (mem_buildRows hsorted row).mp hrow
    · exact (if_neg (keyNameError_none (hnames key hkey)).2).symm
    · exact (if_pos (mem_foldersOf.mp hfolder).2).symm
  rw [hkind a ha, hkind b hb, h]

theorem filter_id (h : row ∈ (buildRows filter collapsed keys).rows) :
    (buildRows filter collapsed keys).rows.filter (·.id = row.id) = [row] := by
  have hdistinct : ((buildRows filter collapsed keys).rows.map fun row => (row.id, row.dir)).Nodup :=
    buildRows_distinct hsorted
  have hnodup := List.Nodup.of_map _ hdistinct
  have hsame : ∀ other ∈ (buildRows filter collapsed keys).rows,
      decide (other.id = row.id) = decide (other = row) := by
    intro other hother
    refine decide_eq_decide.mpr ⟨row_eq_of_id hsorted hnames hother h, ?_⟩
    rintro rfl
    rfl
  rw [List.filter_congr hsame, List.filter_eq, List.count_eq_one_of_mem hnodup h]
  rfl

theorem row_id_ne_nil (h : row ∈ (buildRows filter collapsed keys).rows) : row.id ≠ [] := by
  obtain ⟨-, key, hkey, -, rfl | ⟨folder, hfolder, rfl⟩⟩ := (mem_buildRows hsorted row).mp h
  · exact (keyNameError_none (hnames key hkey)).1
  · rintro rfl
    have hslash := (mem_foldersOf.mp hfolder).2
    cases hslash

theorem mem_enclosing (h : row ∈ (buildRows filter collapsed keys).rows) (folder : Bytes) :
    folder ∈ enclosing row ↔ folder ∈ foldersOf row.id ∧ folder.length < row.id.length := by
  obtain ⟨-, key, hkey, -, rfl | ⟨outer, houter, rfl⟩⟩ := (mem_buildRows hsorted row).mp h
  · exact ⟨fun hin => ⟨hin, folder_shorter (hnames key hkey) hin⟩, And.left⟩
  · obtain ⟨above, below, hsplit⟩ := List.append_of_mem houter
    have hfolders := foldersOf_split hsplit
    have hpairwise := foldersOf_pairwise outer
    have hmem : folder ∈ foldersOf outer ↔ folder ∈ above ∨ folder = outer := by
      rw [hfolders, List.mem_append, List.mem_singleton]
    rw [hfolders] at hpairwise
    rw [enclosing_folderRow hfolders]
    refine ⟨fun hin => ?_, fun hin => (hmem.mp hin.1).resolve_right ?_⟩
    · obtain ⟨hstarts, hne⟩ := (List.pairwise_append.mp hpairwise).2.2 folder hin outer List.mem_cons_self
      exact ⟨hmem.mpr (Or.inl hin), lt_of_le_of_ne hstarts.length_le fun h => hne (hstarts.eq_of_length h)⟩
    · rintro rfl
      exact absurd hin.2 (lt_irrefl _)

end

theorem isShown_of_open (h : ∀ folder ∈ enclosing row, folder ∉ collapsed) :
    isShown filter collapsed row = true := by
  rw [isShown, Bool.not_eq_true', List.any_eq_false]
  intro folder hin
  rw [isFolded, Bool.and_eq_true, Std.ExtTreeSet.contains_iff_mem]
  exact fun hfolded => h folder hin hfolded.2

theorem open_of_isShown (h : isShown [] collapsed row = true) :
    ∀ folder ∈ enclosing row, folder ∉ collapsed := by
  rw [isShown, Bool.not_eq_true', List.any_eq_false] at h
  intro folder hin hfolded
  exact h folder hin (Std.ExtTreeSet.contains_iff_mem.mpr hfolded)

theorem containsIgnoreCase_nil (key : Bytes) : containsIgnoreCase key [] = true := by
  rw [containsIgnoreCase, containsText, List.any_eq_true]
  exact ⟨_, List.mem_tails _ _ |>.mpr List.suffix_rfl, rfl⟩

namespace Tree

theorem find_row {t : Tree} {p : Row → Bool} {row : Row} (hrow : row ∈ t.rows) (hp : p row = true)
    (honly : ∀ other ∈ t.rows, p other = true → other = row) :
    ∃ found, t.find p = some found ∧ found.rows = t.rows ∧ found.row? = some row := by
  unfold find
  split
  · rename_i i hfind
    obtain ⟨hi, hpi, -⟩ := List.findIdx?_eq_some_iff_getElem.mp hfind
    refine ⟨_, rfl, rfl, ?_⟩
    rw [row?, select]
    dsimp only
    rw [List.getElem?_eq_getElem hi, honly _ (List.getElem_mem hi) hpi]
  · rename_i hfind
    rw [List.findIdx?_eq_none_iff] at hfind
    rw [hfind row hrow] at hp
    cases hp

end Tree

namespace Tui

variable {s : Tui}

theorem rebuildRows_selects {row : Row} (hsorted : s.keys.Pairwise fun a b => compare a b = .lt)
    (hnames : ∀ key ∈ s.keys, keyNameError key = none) (h : row ∈ (buildRows s.filter s.collapsed s.keys).rows) :
    (s.rebuildRows row.id).2.tree.rows = (buildRows s.filter s.collapsed s.keys).rows ∧
      (s.rebuildRows row.id).2.tree.row? = some row := by
  have honly : ∀ other ∈ (buildRows s.filter s.collapsed s.keys).rows, decide (other.id = row.id) = true →
      other = row := by
    intro other hother hid
    exact row_eq_of_id hsorted hnames hother h (of_decide_eq_true hid)
  obtain ⟨found, hfind, hrows, hrow⟩ := Tree.find_row
    (t := .build (buildRows s.filter s.collapsed s.keys) (buildRows_labels ..) s.tree.selected) h
    (decide_eq_true rfl) honly
  rw [rebuildRows, if_neg (row_id_ne_nil hsorted hnames h), selectRow]
  dsimp only
  rw [hfind]
  exact ⟨hrows, hrow⟩

theorem mem_expandTo (id folder : Bytes) :
    folder ∈ (s.expandTo id).collapsed ↔
      folder ∈ s.collapsed ∧ ¬(folder ∈ foldersOf id ∧ folder.length < id.length) := by
  have herase : ∀ (folders : List Bytes) (c : Collapsed),
      folder ∈ folders.foldl (fun c folder => c.erase folder) c ↔ folder ∈ c ∧ folder ∉ folders := by
    intro folders
    induction folders with
    | nil => simp
    | cons first more ih =>
      intro c
      rw [List.foldl_cons, ih, Std.ExtTreeSet.mem_erase, List.mem_cons, not_or, ne_eq,
        Std.LawfulEqOrd.compare_eq_iff_eq]
      refine ⟨?_, ?_⟩
      · rintro ⟨⟨hne, hin⟩, hmore⟩
        exact ⟨hin, Ne.symm hne, hmore⟩
      · rintro ⟨hin, hne, hmore⟩
        exact ⟨⟨Ne.symm hne, hin⟩, hmore⟩
  rw [expandTo, herase, List.mem_filter, decide_eq_true_iff]

variable {s' : Tui} {calls : List (Dialogue.Exchange Answer)}

theorem path_refresh_rows {id : Bytes} {ok : Bool} (h : (refresh id s).Path calls (ok, s')) :
    ∃ answer : Answer .list, calls = [⟨.list, answer⟩] ∧ ∀ keys, answer.result = .ok keys → ∃ t : Tui,
      t.filter = s.filter ∧ t.collapsed = s.collapsed ∧ t.keys = keys.mergeSort ∧ s' = (t.rebuildRows id).2 := by
  obtain ⟨first, result, t, rest, rfl, hcall, hrest⟩ := StateT.path_bind.mp (path_modify_bind h)
  obtain ⟨answer, daemonState, rfl, rfl, hok⟩ := path_call hcall
  refine ⟨answer, ?_⟩
  cases result with
  | error e =>
    dsimp only at hrest
    obtain ⟨rfl, rfl, rfl⟩ := path_modify_pure hrest
    refine ⟨rfl, fun keys hkeys => ?_⟩
    cases (hok keys).mpr hkeys
  | ok keys =>
    dsimp only at hrest
    obtain ⟨rfl, rfl, rfl⟩ := path_modify_pure hrest
    refine ⟨rfl, fun keys' hkeys => ?_⟩
    obtain rfl : keys = keys' := Except.ok.inj ((hok keys').mpr hkeys)
    exact ⟨{ s.remask with now := s.now + answer.elapsed, daemonState, keys := keys.mergeSort }, rfl, rfl,
      rfl, rfl⟩

theorem saved_collapsed (key verb : Bytes) (s : Tui) :
    (s.saved key verb).collapsed = (s.expandTo key).collapsed := by
  unfold saved
  dsimp only
  split <;> rfl

theorem saved_matches (key verb : Bytes) (s : Tui) :
    containsIgnoreCase key (s.saved key verb).filter = true := by
  unfold saved
  dsimp only
  split
  · assumption
  · exact containsIgnoreCase_nil key

theorem saveForm_selects {key verb : Bytes} {keys : List Bytes} {elapsed : Time}
    (h : (saveForm key verb s).Path calls (true, s')) (hlist : ⟨.list, ⟨.ok keys, elapsed⟩⟩ ∈ calls)
    (hnodup : keys.Nodup) (hnames : ∀ k ∈ keys, keyNameError k = none) (hkey : key ∈ keys) :
    s'.tree.rows.filter (·.id = key) = [keyRow key] ∧ s'.tree.row? = some (keyRow key) := by
  obtain ⟨first, result, t, rest, rfl, hcall, hrest⟩ := StateT.path_bind.mp (path_get_bind h)
  obtain ⟨answer, daemonState, rfl, rfl, -⟩ := path_call hcall
  cases result with
  | error e =>
    obtain ⟨-, hfalse, -⟩ := path_modify_pure hrest
    cases hfalse
  | ok _ =>
    dsimp only at hrest
    obtain ⟨first, found, t, rest, rfl, hrefresh, hpure⟩ := StateT.path_bind.mp (path_modify_bind hrest)
    obtain ⟨rfl, -, rfl⟩ := StateT.path_pure.mp hpure
    obtain ⟨listed, rfl, hrows⟩ := path_refresh_rows hrefresh
    have hresult : listed.result = .ok keys := by
      simp only [List.append_nil, List.cons_append, List.nil_append, List.mem_cons, List.not_mem_nil,
        or_false] at hlist
      rcases hlist with hset | hlisted
      · cases hset
      · cases hlisted
        rfl
    obtain ⟨t, hfilter, hcollapsed, hkeys, rfl⟩ := hrows keys hresult
    have hsorted : t.keys.Pairwise fun a b => compare a b = .lt := by
      rw [hkeys]
      exact mergeSort_sorted hnodup
    have haccepted : ∀ k ∈ t.keys, keyNameError k = none := by
      rw [hkeys]
      exact fun k hk => hnames k (List.mem_mergeSort.mp hk)
    have hopen : ∀ folder ∈ enclosing (keyRow key), folder ∉ t.collapsed := by
      intro folder hfolder hfolded
      rw [hcollapsed, saved_collapsed, mem_expandTo] at hfolded
      exact hfolded.2 ⟨hfolder, folder_shorter (hnames key hkey) hfolder⟩
    have hin : keyRow key ∈ (buildRows t.filter t.collapsed t.keys).rows := by
      refine (mem_buildRows hsorted _).mpr ⟨isShown_of_open hopen, key, ?_, ?_, Or.inl rfl⟩
      · rw [hkeys]
        exact List.mem_mergeSort.mpr hkey
      · rw [hfilter]
        exact saved_matches ..
    have hrebuilt : (t.rebuildRows key).2.tree.rows = (buildRows t.filter t.collapsed t.keys).rows ∧
        (t.rebuildRows key).2.tree.row? = some (keyRow key) := rebuildRows_selects hsorted haccepted hin
    obtain ⟨hbuilt, hselected⟩ := hrebuilt
    rw [hbuilt]
    exact ⟨filter_id hsorted haccepted hin, hselected⟩

@[simp] theorem rebuildRows_collapsed (id : Bytes) (s : Tui) : (s.rebuildRows id).2.collapsed = s.collapsed := by
  obtain ⟨tree, h⟩ := rebuildRows_eq id s
  rw [h]

@[simp] theorem rebuildRows_filter (id : Bytes) (s : Tui) : (s.rebuildRows id).2.filter = s.filter := by
  obtain ⟨tree, h⟩ := rebuildRows_eq id s
  rw [h]

theorem clearFilter_keeps {row : Row} (hsorted : s.keys.Pairwise fun a b => compare a b = .lt)
    (hnames : ∀ key ∈ s.keys, keyNameError key = none)
    (hrows : s.tree.rows = (buildRows s.filter s.collapsed s.keys).rows) (hrow : s.tree.row? = some row) :
    s.clearFilter.filter = [] ∧
      s.clearFilter.tree.rows = (buildRows [] s.clearFilter.collapsed s.keys).rows ∧
        s.clearFilter.tree.row? = some row ∧
          ∀ folder, folder ∈ s.clearFilter.collapsed ↔ folder ∈ s.collapsed ∧ folder ∉ enclosing row := by
  have hin : row ∈ (buildRows s.filter s.collapsed s.keys).rows := by
    rw [← hrows]
    exact List.mem_of_getElem? hrow
  obtain ⟨hshown, key, hkey, -, hkind⟩ := (mem_buildRows hsorted row).mp hin
  have hid : s.selectedId = row.id := by
    rw [selectedId, hrow]
    rfl
  unfold clearFilter
  split
  · rename_i hfilter
    rw [hfilter] at hshown hrows
    refine ⟨hfilter, hrows, hrow, fun folder => ⟨fun hfolded => ⟨hfolded, fun hin => ?_⟩, And.left⟩⟩
    exact open_of_isShown hshown folder hin hfolded
  · obtain ⟨t, ht⟩ : ∃ t, { s with filter := [] }.expandTo row.id = t := ⟨_, rfl⟩
    have hfilter : t.filter = [] := by rw [← ht]; rfl
    have hkeys : t.keys = s.keys := by rw [← ht]; rfl
    have hcollapsed : ∀ folder, folder ∈ t.collapsed ↔ folder ∈ s.collapsed ∧ folder ∉ enclosing row := by
      intro folder
      rw [← ht, mem_expandTo, mem_enclosing hsorted hnames hin]
    have hin' : row ∈ (buildRows t.filter t.collapsed t.keys).rows := by
      rw [hfilter, hkeys]
      refine (mem_buildRows hsorted row).mpr ⟨isShown_of_open fun folder h hfolded => ?_, key, hkey,
        containsIgnoreCase_nil key, hkind⟩
      exact ((hcollapsed folder).mp hfolded).2 h
    rw [← hkeys] at hsorted hnames
    obtain ⟨hrebuilt, hselected⟩ := rebuildRows_selects hsorted hnames hin'
    have hcleared : { s with filter := [] }.selectedId = row.id := hid
    dsimp only
    rw [hcleared, ht, rebuildRows_collapsed, rebuildRows_filter]
    rw [hfilter, hkeys] at hrebuilt
    exact ⟨hfilter, hrebuilt, hselected, hcollapsed⟩

theorem selection_kept (s : Tui) :
    (∀ key verb calls s' (keys : List Bytes) elapsed, (saveForm key verb s).Path calls (true, s') →
      ⟨.list, ⟨.ok keys, elapsed⟩⟩ ∈ calls → keys.Nodup → (∀ k ∈ keys, keyNameError k = none) → key ∈ keys →
        s'.tree.rows.filter (·.id = key) = [keyRow key] ∧ s'.tree.row? = some (keyRow key)) ∧
    ∀ row, s.keys.Pairwise (fun a b => compare a b = .lt) → (∀ key ∈ s.keys, keyNameError key = none) →
      s.tree.rows = (buildRows s.filter s.collapsed s.keys).rows → s.tree.row? = some row →
        s.clearFilter.filter = [] ∧
          s.clearFilter.tree.rows = (buildRows [] s.clearFilter.collapsed s.keys).rows ∧
            s.clearFilter.tree.row? = some row ∧
              ∀ folder, folder ∈ s.clearFilter.collapsed ↔ folder ∈ s.collapsed ∧ folder ∉ enclosing row :=
  ⟨fun _ _ _ _ _ _ => saveForm_selects, fun _ => clearFilter_keeps⟩

/-- Every folder is folded, and the row of `x/y/` is selected in what the filter "z" leaves. -/
def filteredTui : Tui :=
  let folded : Collapsed := .ofList [text "a/", text "x/", text "x/y/"]
  let keys := [text "a/b", text "x/y/z"]
  { initial with
    keys := keys
    filter := text "z"
    collapsed := folded
    tree := .build (buildRows (text "z") folded keys) (buildRows_labels ..) 1 }

theorem selection_kept_sample :
    (∃ calls s', (saveForm (text "a/b") (text "added") filteredTui).Path calls (true, s') ∧
      s'.tree.rows.filter (·.id = text "a/b") = [keyRow (text "a/b")] ∧
        s'.tree.row? = some (keyRow (text "a/b"))) ∧
    filteredTui.clearFilter.filter = [] ∧ filteredTui.clearFilter.tree.row? = some (folderRow (text "x/y/")) ∧
      text "x/" ∉ filteredTui.clearFilter.collapsed ∧ text "x/y/" ∈ filteredTui.clearFilter.collapsed ∧
        text "a/" ∈ filteredTui.clearFilter.collapsed := by
  have hnames : ∀ key ∈ filteredTui.keys, keyNameError key = none := by decide
  have hsorted : filteredTui.keys.Pairwise fun a b => compare a b = .lt := by decide
  have hpath : ∃ s', (saveForm (text "a/b") (text "added") filteredTui).Path
      [⟨.set (text "a/b") [], ⟨.ok (), 0⟩⟩, ⟨.list, ⟨.ok filteredTui.keys, 0⟩⟩] (true, s') :=
    ⟨_, .ask (.ask (.done _))⟩
  obtain ⟨s', hpath⟩ := hpath
  obtain ⟨hsaved, hcleared⟩ := selection_kept filteredTui
  obtain ⟨hfilter, -, hrow, hfolded⟩ := hcleared (folderRow (text "x/y/")) hsorted hnames rfl (by decide +kernel)
  have henclosing : enclosing (folderRow (text "x/y/")) = [text "x/"] := by decide +kernel
  simp only [henclosing, List.mem_singleton] at hfolded
  refine ⟨⟨_, s', hpath, hsaved _ _ _ s' filteredTui.keys 0 hpath (by simp) (by decide) hnames (by decide)⟩,
    hfilter, hrow, fun hx => ((hfolded _).mp hx).2 rfl, (hfolded _).mpr ⟨?_, by decide⟩,
    (hfolded _).mpr ⟨?_, by decide⟩⟩
  · exact Std.ExtTreeSet.contains_iff_mem.mp (by decide +kernel)
  · exact Std.ExtTreeSet.contains_iff_mem.mp (by decide +kernel)

end Tui

end Secretov
