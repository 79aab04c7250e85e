import Secretov.Folders

/-! The rows of the key tree (tui_edit.cpp): every key that matches, after the folders
around it. -/

namespace Secretov

/-- The folders around a row, outermost first. -/
def enclosing (row : Row) : List Bytes := if row.dir then (foldersOf row.id).dropLast else foldersOf row.id

/-- What follows the last slash, or the last but one of a folder. -/
def lastSegment (row : Row) : Bytes :=
  if row.dir then row.id.dropLast.rtakeWhile (· ≠ slash) ++ [slash] else row.id.rtakeWhile (· ≠ slash)

def labelOf (row : Row) : Bytes := printable (lastSegment row)

def keyRow (key : Bytes) : Row := ⟨key, false, (foldersOf key).length⟩

def folderRow (folder : Bytes) : Row := ⟨folder, true, (foldersOf folder).dropLast.length⟩

/-- The order of the rows: a folder goes before a key of the same name. -/
def Row.Before (a b : Row) : Prop := compare a.id b.id = .lt ∨ a.id = b.id ∧ a.dir = true ∧ b.dir = false

section

variable (filter : Bytes) (collapsed : Collapsed)

/-- No folder around the row is folded. -/
def isShown (row : Row) : Bool := !(enclosing row).any (isFolded filter collapsed ·)

def shownRows (rows : List Row) : List Row := rows.filter (isShown filter collapsed)


theorem enclosing_folderRow {folder : Bytes} {above : List Bytes} (h : foldersOf folder = above ++ [folder]) :
    enclosing (folderRow folder) = above := by
  rw [enclosing, folderRow, if_pos rfl, h, List.dropLast_concat]

theorem lastSegment_folder {folder : Bytes} {above : List Bytes} (h : foldersOf folder = above ++ [folder]) :
    folder.drop (above.getLast?.getD []).length = lastSegment (folderRow folder) := by
  have hmem : folder ∈ foldersOf folder := by rw [h]; simp
  obtain ⟨name, hname⟩ := List.getLast?_eq_some_iff.mp (mem_foldersOf.mp hmem).2
  have hdrop : folder.dropLast = name := by rw [hname, List.dropLast_concat]
  rw [lastSegment, folderRow, if_pos rfl, ← foldersOf_dropLast h, foldersOf_getLast, hdrop, hname]
  have htext : name ++ [slash] = folderPrefix name ++ (name.rtakeWhile (· ≠ slash) ++ [slash]) := by
    rw [← List.append_assoc, folderPrefix_append]
  rw [htext, List.drop_left]

theorem lastSegment_key (key : Bytes) :
    key.drop ((foldersOf key).getLast?.getD []).length = lastSegment (keyRow key) := by
  have hdrop : (folderPrefix key ++ key.rtakeWhile (· ≠ slash)).drop (folderPrefix key).length =
      key.rtakeWhile (· ≠ slash) := List.drop_left
  rw [folderPrefix_append] at hdrop
  rw [foldersOf_getLast, hdrop]
  rfl

theorem addFolders_eq {key : Bytes} {above folders : List Bytes} (h : foldersOf key = above ++ folders)
    (b : Rows) : addFolders filter collapsed folders above.length (above.getLast?.getD []).length
      (above.any (isFolded filter collapsed ·)) b =
    (⟨b.rows ++ shownRows filter collapsed (folders.map folderRow),
      b.labels ++ (shownRows filter collapsed (folders.map folderRow)).map labelOf, b.branch ++ folders⟩,
      (foldersOf key).any (isFolded filter collapsed ·)) := by
  induction folders generalizing above b with
  | nil =>
    rw [List.append_nil] at h
    rw [addFolders, h, shownRows, List.map_nil, List.filter_nil, List.map_nil]
    simp only [List.append_nil]
  | cons folder more ih =>
    have hfolder := foldersOf_split h
    have hmore : foldersOf key = (above ++ [folder]) ++ more := by rw [h, List.append_assoc]; rfl
    have hstep := fun b => ih hmore b
    rw [List.length_append, List.length_singleton, List.getLast?_concat, Option.getD_some, List.any_append,
      List.any_cons, List.any_nil, Bool.or_false] at hstep
    have hshown : isShown filter collapsed (folderRow folder) = !above.any (isFolded filter collapsed ·) := by
      rw [isShown, enclosing_folderRow hfolder]
    have hdepth : (folderRow folder).depth = above.length := by
      rw [folderRow, hfolder, List.dropLast_concat]
    have hfirst : shownRows filter collapsed (folderRow folder :: more.map folderRow) =
        (if above.any (isFolded filter collapsed ·) then [] else [folderRow folder]) ++
          shownRows filter collapsed (more.map folderRow) := by
      rw [shownRows, List.filter_cons, hshown]
      cases above.any (isFolded filter collapsed ·) <;> rfl
    rw [addFolders, hstep, List.map_cons, hfirst]
    cases above.any (isFolded filter collapsed ·) with
    | true => simp
    | false =>
      have hrow : (⟨folder, true, above.length⟩ : Row) = folderRow folder := by
        rw [← hdepth]
        rfl
      simp [Rows.push, hrow, lastSegment_folder hfolder, labelOf]

/-- The rows a key adds where another one has opened its folders. -/
def keyRows (other key : Bytes) : List Row :=
  ((foldersOf key).drop (sharedLength (foldersOf key) (foldersOf other))).map folderRow ++ [keyRow key]

theorem addKey_eq {b : Rows} {key other : Bytes} (hkey : containsIgnoreCase key filter = true)
    (hbranch : b.branch = foldersOf other) :
    addKey filter collapsed b key = ⟨b.rows ++ shownRows filter collapsed (keyRows other key),
      b.labels ++ (shownRows filter collapsed (keyRows other key)).map labelOf, foldersOf key⟩ := by
  obtain ⟨common, new, hsplit, hlength, hcommon, -⟩ := foldersOf_shared key other
  have hnew : (foldersOf key).drop common.length = new := by rw [hsplit, List.drop_left]
  have hadded := addFolders_eq filter collapsed hsplit { b with branch := common }
  have hshown : isShown filter collapsed (keyRow key) = !(foldersOf key).any (isFolded filter collapsed ·) := rfl
  have hrows : shownRows filter collapsed (keyRows other key) = shownRows filter collapsed (new.map folderRow) ++
      if (foldersOf key).any (isFolded filter collapsed ·) then [] else [keyRow key] := by
    rw [keyRows, ← hlength, hnew, shownRows, List.filter_append, List.filter_singleton, hshown]
    cases (foldersOf key).any (isFolded filter collapsed ·) <;> rfl
  rw [addKey, hkey, Bool.not_true, if_neg (by decide)]
  dsimp only
  rw [hbranch, ← hcommon, ← hlength, hnew, hadded, hrows]
  cases (foldersOf key).any (isFolded filter collapsed ·) with
  | true => simp [← hsplit]
  | false => simp [Rows.push, ← hsplit, lastSegment_key, keyRow, labelOf]

/-- What has been put out after `keys`, which all match. -/
structure Listed (keys : List Bytes) (b : Rows) : Prop where
  branch : b.branch = foldersOf (keys.getLast?.getD [])
  labels : b.labels = b.rows.map labelOf
  mem : ∀ row, row ∈ b.rows ↔ isShown filter collapsed row = true ∧
    ∃ key ∈ keys, row = keyRow key ∨ ∃ folder ∈ foldersOf key, row = folderRow folder
  sorted : b.rows.Pairwise Row.Before

end

theorem keyRows_pairwise (other key : Bytes) : (keyRows other key).Pairwise Row.Before := by
  refine List.pairwise_append.mpr ⟨?_, List.pairwise_singleton _ _, ?_⟩
  · rw [List.pairwise_map]
    refine ((foldersOf_pairwise key).sublist (List.drop_sublist _ _)).imp ?_
    rintro a b ⟨hstarts, hne⟩
    exact Or.inl (PrefixOrder.lt_of_prefix hstarts hne)
  · intro row hrow last hlast
    obtain ⟨folder, hfolder, rfl⟩ := List.mem_map.mp hrow
    rw [List.mem_singleton.mp hlast]
    have hstarts := (mem_foldersOf.mp (List.mem_of_mem_drop hfolder)).1
    by_cases hsame : folder = key
    · exact Or.inr ⟨hsame, rfl, rfl⟩
    · exact Or.inl (PrefixOrder.lt_of_prefix hstarts hsame)

/-- Rows of a key that comes later go after all rows of the keys before it. -/
theorem before_keyRows {other key id : Bytes} (hid : (compare id other).isLE = true)
    (hkey : compare other key = .lt) : ∀ row ∈ keyRows other key, compare id row.id = .lt := by
  intro row hrow
  rcases List.mem_append.mp hrow with hfolder | hlast
  · obtain ⟨folder, hin, rfl⟩ := List.mem_map.mp hfolder
    obtain ⟨common, new, hsplit, hlength, -, hnew⟩ := foldersOf_shared key other
    rw [← hlength, hsplit, List.drop_left] at hin
    have hmem : folder ∈ foldersOf key := by
      rw [hsplit]
      exact List.mem_append_right _ hin
    -- a folder up to the other key would be a folder of that key
    have hlt : compare other folder = .lt := by
      apply Std.OrientedCmp.lt_of_not_isLE
      intro hle
      exact hnew folder hin
        (PrefixOrder.prefix_of_between hle (by rw [hkey]; rfl) List.prefix_rfl (mem_foldersOf.mp hmem).1)
    exact Std.TransCmp.lt_of_isLE_of_lt hid hlt
  · rw [List.mem_singleton.mp hlast]
    exact Std.TransCmp.lt_of_isLE_of_lt hid hkey

section

variable {filter : Bytes} {collapsed : Collapsed}

theorem last_greatest {keys : List Bytes} (hsorted : keys.Pairwise fun a b => compare a b = .lt) {key : Bytes}
    (h : key ∈ keys) : keys.getLast?.getD [] ∈ keys ∧ (compare key (keys.getLast?.getD [])).isLE = true := by
  cases keys using List.reverseRecOn with
  | nil => cases h
  | append_singleton keys last =>
    rw [List.getLast?_concat, Option.getD_some]
    refine ⟨by simp, ?_⟩
    rcases List.mem_append.mp h with hin | hlast
    · rw [(List.pairwise_append.mp hsorted).2.2 key hin last List.mem_cons_self]
      rfl
    · rw [List.mem_singleton.mp hlast, Std.ReflOrd.compare_self]
      rfl

theorem Listed.addKey {keys : List Bytes} {key : Bytes} {b : Rows} (h : Listed filter collapsed keys b)
    (hsorted : (keys ++ [key]).Pairwise fun a b => compare a b = .lt)
    (hkey : containsIgnoreCase key filter = true) :
    Listed filter collapsed (keys ++ [key]) (addKey filter collapsed b key) := by
  rw [addKey_eq filter collapsed hkey h.branch]
  obtain ⟨hkeys, -, hlater⟩ := List.pairwise_append.mp hsorted
  obtain ⟨common, new, hsplit, hlength, hcommon, -⟩ := foldersOf_shared key (keys.getLast?.getD [])
  have hnew : (foldersOf key).drop (sharedLength (foldersOf key) (foldersOf (keys.getLast?.getD []))) = new := by
    rw [← hlength, hsplit, List.drop_left]
  refine ⟨?_, ?_, ?_, ?_⟩
  · rw [List.getLast?_concat, Option.getD_some]
  · rw [h.labels, List.map_append]
  · intro row
    rw [List.mem_append, h.mem, shownRows, List.mem_filter, keyRows, hnew, List.mem_append, List.mem_singleton]
    refine ⟨?_, ?_⟩
    · rintro (⟨hshown, key', hin, hrow⟩ | ⟨hfolder | rfl, hshown⟩)
      · exact ⟨hshown, key', List.mem_append_left _ hin, hrow⟩
      · obtain ⟨folder, hin, rfl⟩ := List.mem_map.mp hfolder
        exact ⟨hshown, key, by simp, Or.inr ⟨folder, by rw [hsplit]; exact List.mem_append_right _ hin, rfl⟩⟩
      · exact ⟨hshown, key, by simp, Or.inl rfl⟩
    · rintro ⟨hshown, key', hin, hrow⟩
      rcases List.mem_append.mp hin with hold | hlast
      · exact Or.inl ⟨hshown, key', hold, hrow⟩
      · rw [List.mem_singleton.mp hlast] at hrow
        rcases hrow with rfl | ⟨folder, hfolder, rfl⟩
        · exact Or.inr ⟨Or.inr rfl, hshown⟩
        · rw [hsplit] at hfolder
          rcases List.mem_append.mp hfolder with hshared | hmore
          · -- a shared folder has its row already
            rw [hcommon] at hshared
            have hother := List.mem_of_mem_take hshared
            have hlast : keys.getLast?.getD [] ∈ keys := by
              cases keys using List.reverseRecOn with
              | nil => cases hother
              | append_singleton keys last => simp
            exact Or.inl ⟨hshown, _, hlast, Or.inr ⟨folder, hother, rfl⟩⟩
          · exact Or.inr ⟨Or.inl (List.mem_map_of_mem hmore), hshown⟩
  · refine List.pairwise_append.mpr ⟨h.sorted, (keyRows_pairwise _ _).filter _, ?_⟩
    intro row hrow row' hrow'
    obtain ⟨-, key', hin, hkind⟩ := (h.mem row).mp hrow
    obtain ⟨hlast, hle⟩ := last_greatest hkeys hin
    have hid : (compare row.id key').isLE = true := by
      rcases hkind with rfl | ⟨folder, hfolder, rfl⟩
      · exact PrefixOrder.isLE_of_prefix List.prefix_rfl
      · exact PrefixOrder.isLE_of_prefix (mem_foldersOf.mp hfolder).1
    exact Or.inl (before_keyRows (Std.TransCmp.isLE_trans hid hle) (hlater _ hlast key List.mem_cons_self) row'
      (List.mem_filter.mp hrow').1)

theorem listed_buildRows {keys : List Bytes} (hsorted : keys.Pairwise fun a b => compare a b = .lt)
    (hkeys : ∀ key ∈ keys, containsIgnoreCase key filter = true) :
    Listed filter collapsed keys (buildRows filter collapsed keys) := by
  induction keys using List.reverseRecOn with
  | nil => exact ⟨rfl, rfl, fun row => ⟨nofun, nofun⟩, List.Pairwise.nil⟩
  | append_singleton keys key ih =>
    have hbefore := ih (List.pairwise_append.mp hsorted).1 fun k hk => hkeys k (List.mem_append_left _ hk)
    rw [buildRows, List.foldl_append, List.foldl_cons, List.foldl_nil, ← buildRows]
    exact hbefore.addKey hsorted (hkeys key (by simp))

theorem buildRows_filter (keys : List Bytes) : buildRows filter collapsed keys =
    buildRows filter collapsed (keys.filter (containsIgnoreCase · filter)) := by
  have hstep : addKey filter collapsed =
      fun b key => if containsIgnoreCase key filter = true then addKey filter collapsed b key else b := by
    funext b key
    by_cases hkey : containsIgnoreCase key filter = true
    · rw [if_pos hkey]
    · rw [if_neg hkey, addKey, Bool.eq_false_iff.mpr hkey]
      rfl
  rw [buildRows, buildRows, List.foldl_filter]
  exact congrArg (fun step => keys.foldl step _) hstep

theorem buildRows_listed {keys : List Bytes} (hsorted : keys.Pairwise fun a b => compare a b = .lt) :
    Listed filter collapsed (keys.filter (containsIgnoreCase · filter)) (buildRows filter collapsed keys) := by
  rw [buildRows_filter]
  exact listed_buildRows (hsorted.filter _) fun key hkey => (List.mem_filter.mp hkey).2

theorem mem_buildRows {keys : List Bytes} (hsorted : keys.Pairwise fun a b => compare a b = .lt) (row : Row) :
    row ∈ (buildRows filter collapsed keys).rows ↔ isShown filter collapsed row = true ∧
      ∃ key ∈ keys, containsIgnoreCase key filter = true ∧
        (row = keyRow key ∨ ∃ folder ∈ foldersOf key, row = folderRow folder) := by
  rw [(buildRows_listed hsorted).mem]
  simp only [List.mem_filter, and_assoc]

theorem Row.Before.isLE {a b : Row} (h : a.Before b) : (compare a.id b.id).isLE = true := by
  rcases h with hlt | ⟨heq, -⟩
  · rw [hlt]
    rfl
  · rw [heq, Std.ReflOrd.compare_self]
    rfl

variable (filter collapsed) in
/-- The rows are the depth-first listing of the tree of matching keys. -/
structure Listing (keys : List Bytes) (b : Rows) : Prop where
  secrets : (b.rows.filter (!·.dir)).map Row.id =
    keys.filter fun key => containsIgnoreCase key filter && !(foldersOf key).any (isFolded filter collapsed ·)
  folders : ∀ folder, (∃ row ∈ b.rows, row.dir = true ∧ row.id = folder) ↔
    (∃ key ∈ keys, containsIgnoreCase key filter = true ∧ folder ∈ foldersOf key) ∧
      ∀ outer ∈ (foldersOf folder).dropLast, isFolded filter collapsed outer = false
  nested : ∀ before row after, b.rows = before ++ row :: after → row.dir = true →
    ∃ inside rest, after = inside ++ rest ∧ (∀ below ∈ inside, row.id <+: below.id) ∧
      ∀ other ∈ before ++ rest, ¬row.id <+: other.id
  order : b.rows.Pairwise Row.Before
  distinct : (b.rows.map fun row => (row.id, row.dir)).Nodup
  depth : ∀ row ∈ b.rows, row.depth = (enclosing row).length
  labels : b.labels = b.rows.map fun row => printable (lastSegment row)

end

/-- What starts with the id of a folder row lies right after that row. -/
theorem nested_of_sorted {before after : List Row} {row : Row} (h : (before ++ row :: after).Pairwise Row.Before)
    (hdir : row.dir = true) : ∃ inside rest, after = inside ++ rest ∧ (∀ below ∈ inside, row.id <+: below.id) ∧
      ∀ other ∈ before ++ rest, ¬row.id <+: other.id := by
  obtain ⟨-, hrow, hcross⟩ := List.pairwise_append.mp h
  obtain ⟨hlater, hafter⟩ := List.pairwise_cons.mp hrow
  have hsplit : after.takeWhile (row.id.isPrefixOf ·.id) ++ after.dropWhile (row.id.isPrefixOf ·.id) = after :=
    List.takeWhile_append_dropWhile
  refine ⟨_, _, hsplit.symm, ?_, ?_⟩
  · intro below hbelow
    have hin := List.mem_takeWhile_imp hbelow
    exact List.isPrefixOf_iff_prefix.mp hin
  · intro other hother hstarts
    rcases List.mem_append.mp hother with hfirst | hrest
    · -- a row before it would have to be its equal
      have hbefore := hcross other hfirst row List.mem_cons_self
      have hback := PrefixOrder.isLE_of_prefix hstarts
      have hsame := Std.OrientedCmp.isLE_antisymm hbefore.isLE hback
      rcases hbefore with hlt | ⟨-, -, hnot⟩
      · rw [hsame] at hlt
        cases hlt
      · rw [hdir] at hnot
        cases hnot
    · cases hdrop : after.dropWhile (row.id.isPrefixOf ·.id) with
      | nil =>
        rw [hdrop] at hrest
        cases hrest
      | cons next more =>
        have hnext : ¬row.id <+: next.id := by
          have hstop := List.head?_dropWhile_not (row.id.isPrefixOf ·.id) after
          rw [hdrop] at hstop
          have hno : row.id.isPrefixOf next.id = false := hstop
          rw [← List.isPrefixOf_iff_prefix, hno]
          exact Bool.false_ne_true
        rw [hdrop] at hrest hsplit
        rcases List.mem_cons.mp hrest with rfl | hmore
        · exact hnext hstarts
        · rw [← hsplit] at hafter hlater
          have hle := (hlater next (by simp)).isLE
          have hle' := ((List.pairwise_cons.mp (List.pairwise_append.mp hafter).2.1).1 other hmore).isLE
          exact hnext (PrefixOrder.prefix_of_between hle hle' List.prefix_rfl hstarts)

section

variable {filter : Bytes} {collapsed : Collapsed}

theorem buildRows_secrets {keys : List Bytes} (hsorted : keys.Pairwise fun a b => compare a b = .lt) :
    ((buildRows filter collapsed keys).rows.filter (!·.dir)).map Row.id =
      keys.filter fun key =>
        containsIgnoreCase key filter && !(foldersOf key).any (isFolded filter collapsed ·) := by
  have hlisted : Listed filter collapsed _ (buildRows filter collapsed keys) := buildRows_listed hsorted
  refine PrefixOrder.eq_of_pairwise (fun _ _ => Std.OrientedCmp.not_lt_of_lt) ?_ (hsorted.filter _) ?_
  · rw [List.pairwise_map]
    refine (hlisted.sorted.filter _).imp_of_mem ?_
    intro a b ha _ hbefore
    rcases hbefore with hlt | ⟨-, hdir, -⟩
    · exact hlt
    · rw [List.mem_filter, hdir] at ha
      exact absurd ha.2 (by decide)
  · intro id
    rw [List.mem_map, List.mem_filter, Bool.and_eq_true]
    refine ⟨?_, ?_⟩
    · rintro ⟨row, hrow, rfl⟩
      obtain ⟨hin, hdir⟩ := List.mem_filter.mp hrow
      obtain ⟨hshown, key, hkey, hmatches, rfl | ⟨folder, -, rfl⟩⟩ := (mem_buildRows hsorted row).mp hin
      · exact ⟨hkey, hmatches, hshown⟩
      · exact absurd hdir Bool.false_ne_true
    · rintro ⟨hkey, hmatches, hshown⟩
      refine ⟨keyRow id, List.mem_filter.mpr ⟨?_, rfl⟩, rfl⟩
      exact (mem_buildRows hsorted _).mpr ⟨hshown, id, hkey, hmatches, Or.inl rfl⟩

theorem mem_folder_rows {keys : List Bytes}
    (hsorted : keys.Pairwise fun a b => compare a b = .lt) (folder : Bytes) :
    (∃ row ∈ (buildRows filter collapsed keys).rows, row.dir = true ∧ row.id = folder) ↔
      (∃ key ∈ keys, containsIgnoreCase key filter = true ∧ folder ∈ foldersOf key) ∧
        ∀ outer ∈ (foldersOf folder).dropLast, isFolded filter collapsed outer = false := by
  have hshown : isShown filter collapsed (folderRow folder) = true ↔
      ∀ outer ∈ (foldersOf folder).dropLast, isFolded filter collapsed outer = false := by
    rw [isShown, Bool.not_eq_true', List.any_eq_false]
    simp only [Bool.not_eq_true]
    rfl
  rw [← hshown]
  refine ⟨?_, ?_⟩
  · rintro ⟨row, hrow, hdir, rfl⟩
    obtain ⟨hvisible, key, hkey, hmatches, rfl | ⟨folder, hfolder, rfl⟩⟩ := (mem_buildRows hsorted row).mp hrow
    · cases hdir
    · exact ⟨⟨key, hkey, hmatches, hfolder⟩, hvisible⟩
  · rintro ⟨⟨key, hkey, hmatches, hfolder⟩, hvisible⟩
    exact ⟨folderRow folder, (mem_buildRows hsorted _).mpr
      ⟨hvisible, key, hkey, hmatches, Or.inr ⟨folder, hfolder, rfl⟩⟩, rfl, rfl⟩

theorem buildRows_distinct {keys : List Bytes} (hsorted : keys.Pairwise fun a b => compare a b = .lt) :
    ((buildRows filter collapsed keys).rows.map fun row => (row.id, row.dir)).Nodup := by
  have hlisted : Listed filter collapsed _ (buildRows filter collapsed keys) := buildRows_listed hsorted
  rw [List.Nodup, List.pairwise_map]
  refine hlisted.sorted.imp ?_
  intro a b hbefore hsame
  obtain ⟨hid, hsameDir⟩ := Prod.mk.inj hsame
  rcases hbefore with hlt | ⟨-, hdir, hnot⟩
  · rw [hid, Std.ReflOrd.compare_self] at hlt
    cases hlt
  · rw [hsameDir, hnot] at hdir
    cases hdir

theorem buildRows_depth {keys : List Bytes} (hsorted : keys.Pairwise fun a b => compare a b = .lt) {row : Row}
    (h : row ∈ (buildRows filter collapsed keys).rows) : row.depth = (enclosing row).length := by
  obtain ⟨-, key, -, -, rfl | ⟨folder, -, rfl⟩⟩ := (mem_buildRows hsorted row).mp h
  · rfl
  · rfl

end

theorem buildRows_listing {keys : List Bytes}
    (hsorted : keys.Pairwise fun a b => compare a b = .lt) (filter : Bytes)
    (collapsed : Collapsed) : Listing filter collapsed keys (buildRows filter collapsed keys) where
  secrets := buildRows_secrets hsorted
  folders := mem_folder_rows hsorted
  nested before row after hrows hdir := by
    have hlisted : Listed filter collapsed _ (buildRows filter collapsed keys) := buildRows_listed hsorted
    have hpairwise := hlisted.sorted
    rw [hrows] at hpairwise
    exact nested_of_sorted hpairwise hdir
  order := (buildRows_listed hsorted).sorted
  distinct := buildRows_distinct hsorted
  depth _ := buildRows_depth hsorted
  labels := (buildRows_listed hsorted).labels

def sampleKeys : List Bytes := [text "a", text "d/B", text "d/e/c", text "f/b"]

/-- `d/` is folded, and the fold does not count while there is a filter. -/
theorem buildRows_listing_sample :
    (buildRows [] {text "d/"} sampleKeys).rows.map Row.id = [text "a", text "d/", text "f/", text "f/b"] ∧
    Listing [] {text "d/"} sampleKeys (buildRows [] {text "d/"} sampleKeys) ∧
    (buildRows (text "b") {text "d/"} sampleKeys).rows.map Row.id =
      [text "d/", text "d/B", text "f/", text "f/b"] ∧
    Listing (text "b") {text "d/"} sampleKeys (buildRows (text "b") {text "d/"} sampleKeys) :=
  ⟨by decide, buildRows_listing (by decide) [] _, by decide, buildRows_listing (by decide) (text "b") _⟩

end Secretov
