import Secretov.Selection

/-! Where the selection lands after a delete (`delete_landing`, tui_edit.cpp), against what its
comment promises. -/

namespace Secretov

/-- The row is in the folder, at any depth below it. Every row is in the empty one. -/
def InFolder (folder : Bytes) (row : Row) : Prop := folder <+: row.id ∧ folder ≠ row.id

/-- The rows of a folder lie together. -/
theorem InFolder.between {folder : Bytes} {a b c : Row} (hab : a.Before b) (hbc : b.Before c)
    (ha : InFolder folder a) (hc : InFolder folder c) : InFolder folder b := by
  refine ⟨PrefixOrder.prefix_of_between hab.isLE hbc.isLE ha.1 hc.1, ?_⟩
  rintro rfl
  have hlt := PrefixOrder.lt_of_prefix ha.1 ha.2
  have hself := Std.TransCmp.lt_of_lt_of_isLE hlt hab.isLE
  rw [Std.ReflOrd.compare_self] at hself
  cases hself

theorem Row.Before.asymm {a b : Row} (h : a.Before b) : ¬b.Before a := by
  intro h'
  have hsame := Std.OrientedCmp.isLE_antisymm h.isLE h'.isLE
  rcases h with hlt | ⟨hid, hdir, -⟩
  · rw [hsame] at hlt
    cases hlt
  · rcases h' with hlt | ⟨-, -, hdir'⟩
    · rw [hid, Std.ReflOrd.compare_self] at hlt
      cases hlt
    · rw [hdir] at hdir'
      cases hdir'

theorem enclosing_isPrefix (row : Row) : enclosing row <+: foldersOf row.id := by
  unfold enclosing
  split
  · exact List.dropLast_prefix _
  · exact List.prefix_rfl

theorem foldersOf_enclosing {row : Row} {folder : Bytes} {above below : List Bytes}
    (h : enclosing row = above ++ folder :: below) : foldersOf folder = above ++ [folder] := by
  obtain ⟨rest, hrest⟩ := enclosing_isPrefix row
  rw [h, List.append_assoc, List.cons_append] at hrest
  exact foldersOf_split hrest.symm

/-- The row lies right in the folder of the deleted one. -/
def isSibling (deleted row : Row) : Bool := enclosing row = enclosing deleted

def nextSibling (rows : List Row) (selected : Nat) (deleted : Row) : Option Row :=
  (rows.drop (selected + 1)).find? (isSibling deleted)

def previousSibling (rows : List Row) (selected : Nat) (deleted : Row) : Option Row :=
  (rows.take selected).reverse.find? (isSibling deleted)

/-- The outermost folder around a secret, or the secret where there is none. -/
def outermost (deleted : Row) : Bytes := (foldersOf deleted.id).head?.getD deleted.id

/-- The row above all folders of the deleted one. -/
def rowAbove (rows : List Row) (deleted : Row) : Option Row :=
    (rows.takeWhile (·.id ≠ outermost deleted)).getLast?

def namesRow (rows : List Row) (id : Bytes) : Bool := rows.any (·.id = id)

/-- What the comment on `delete_landing` promises, given the rows after the delete. -/
def promisedLanding (rows rebuilt : List Row) (selected : Nat) (deleted : Row) : Option Bytes :=
  ((nextSibling rows selected deleted).map Row.id).or (((previousSibling rows selected deleted).map Row.id).or
    (((enclosing deleted).reverse.find? (namesRow rebuilt)).or ((rowAbove rows deleted).map Row.id)))

/-- Searching a run for `q` finds the first `r` of the list, where those in `s` come first
and the run goes on while they last. -/
theorem find?_takeWhile {α : Type*} {l : List α} {p q r : α → Bool} {s : α → Prop}
    (hin : ∀ x ∈ l, s x → p x = true ∧ q x = r x) (hr : ∀ x ∈ l, r x = true → s x)
    (hfirst : l.Pairwise fun x y => s y → s x)
    (hstop : ∀ run x rest, l = run ++ x :: rest → (∀ y ∈ run, s y) → ¬s x → p x = false) :
    (l.takeWhile p).find? q = l.find? r := by
  induction l with
  | nil => rfl
  | cons x l ih =>
    obtain ⟨hx, hl⟩ := List.pairwise_cons.mp hfirst
    by_cases hs : s x
    · obtain ⟨hp, hq⟩ := hin x List.mem_cons_self hs
      have hrest := ih (fun y hy => hin y (List.mem_cons_of_mem x hy))
        (fun y hy => hr y (List.mem_cons_of_mem x hy)) hl
        fun run y rest hsplit hrun => hstop (x :: run) y rest (by rw [hsplit]; rfl) (by
          intro z hz
          rcases List.mem_cons.mp hz with rfl | hmore
          · exact hs
          · exact hrun z hmore)
      rw [List.takeWhile_cons_of_pos hp, List.find?_cons, List.find?_cons, hq, hrest]
    · have hp := hstop [] x l rfl nofun hs
      have hnone : (x :: l).find? r = none := by
        refine List.find?_eq_none.mpr fun y hy hry => hs ?_
        rcases List.mem_cons.mp hy with rfl | hmore
        · exact hr y hy hry
        · exact hx y hmore (hr y hy hry)
      rw [List.takeWhile_cons_of_neg (by rw [hp]; exact Bool.false_ne_true), hnone]
      rfl

theorem deleted_inFolder {key : Bytes} (hname : keyNameError key = none) :
    InFolder (folderPrefix key) (keyRow key) := by
  refine ⟨⟨_, folderPrefix_append key⟩, fun hsame => ?_⟩
  by_cases hnil : folderPrefix key = []
  · exact (keyNameError_none hname).1 (hsame.symm.trans hnil)
  · have hslash := (mem_foldersOf.mp (folderPrefix_mem hnil)).2
    rw [hsame] at hslash
    exact (keyNameError_none hname).2 hslash

theorem namesRow_of_mem {rows : List Row} {row : Row} (h : row ∈ rows) : namesRow rows row.id = true :=
  List.any_eq_true.mpr ⟨row, h, decide_eq_true rfl⟩

theorem find?_toList {o : Option Row} {p : Bytes → Bool} (h : ∀ row, o = some row → p row.id = true) :
    (o.toList.map Row.id).find? p = o.map Row.id := by
  cases o with
  | none => rfl
  | some row => rw [Option.toList_some, List.map_singleton, List.find?_singleton, h row rfl]; rfl

theorem outermost_spec {key : Bytes} (h : foldersOf key ≠ []) : outermost (keyRow key) ∈ foldersOf key ∧
    foldersOf (outermost (keyRow key)) = [] ++ [outermost (keyRow key)] ∧
      ∀ folder ∈ foldersOf key, outermost (keyRow key) <+: folder := by
  obtain ⟨outer, more, hfolders⟩ := List.exists_cons_of_ne_nil h
  have houter : outermost (keyRow key) = outer := by
    have hid : (keyRow key).id = key := rfl
    rw [outermost, hid, hfolders]
    rfl
  have hsplit : foldersOf key = [] ++ outer :: more := hfolders
  have hpairwise := foldersOf_pairwise key
  rw [hfolders] at hpairwise
  rw [houter]
  refine ⟨by rw [hfolders]; exact List.mem_cons_self, foldersOf_split hsplit, ?_⟩
  intro folder hfolder
  rw [hfolders] at hfolder
  rcases List.mem_cons.mp hfolder with rfl | hmore
  · exact List.prefix_rfl
  · exact ((List.pairwise_cons.mp hpairwise).1 folder hmore).1

/-! The rows of sorted keys, one of them the deleted one. -/

section

variable {filter : Bytes} {collapsed : Collapsed} {keys : List Bytes} {row : Row} {key : Bytes}
  {before after : List Row} (hsorted : keys.Pairwise fun a b => compare a b = .lt)

include hsorted

theorem rows_pairwise (hrows : (buildRows filter collapsed keys).rows = before ++ keyRow key :: after) :
    (before ++ keyRow key :: after).Pairwise Row.Before := by
  rw [← hrows]
  exact (buildRows_listed hsorted).sorted

theorem mem_rebuilt (row : Row) :
    row ∈ (buildRows filter collapsed (keys.erase key)).rows ↔ isShown filter collapsed row = true ∧
      ∃ k ∈ keys, k ≠ key ∧ containsIgnoreCase k filter = true ∧
        (row = keyRow k ∨ ∃ folder ∈ foldersOf k, row = folderRow folder) := by
  have hnodup : keys.Nodup := by
    refine hsorted.imp ?_
    rintro a _ hlt rfl
    rw [Std.ReflOrd.compare_self] at hlt
    cases hlt
  rw [mem_buildRows (hsorted.sublist List.erase_sublist)]
  simp only [hnodup.mem_erase_iff, and_assoc, and_left_comm]

theorem exists_key (h : row ∈ (buildRows filter collapsed keys).rows) :
    ∃ k ∈ keys, containsIgnoreCase k filter = true ∧ row.id <+: k := by
  obtain ⟨-, k, hk, hmatches, rfl | ⟨folder, hfolder, rfl⟩⟩ := (mem_buildRows hsorted row).mp h
  · exact ⟨k, hk, hmatches, List.prefix_rfl⟩
  · exact ⟨k, hk, hmatches, (mem_foldersOf.mp hfolder).1⟩

theorem stays (h : row ∈ (buildRows filter collapsed keys).rows) (hnot : ¬row.id <+: key) :
    row ∈ (buildRows filter collapsed (keys.erase key)).rows := by
  obtain ⟨hshown, k, hk, hmatches, hkind⟩ := (mem_buildRows hsorted row).mp h
  refine (mem_rebuilt hsorted row).mpr ⟨hshown, k, hk, ?_, hmatches, hkind⟩
  rintro rfl
  rcases hkind with rfl | ⟨folder, hfolder, rfl⟩
  · exact hnot List.prefix_rfl
  · exact hnot (mem_foldersOf.mp hfolder).1

theorem ne_deleted (hrows : (buildRows filter collapsed keys).rows = before ++ keyRow key :: after)
    (h : row ∈ before ∨ row ∈ after) : row ≠ keyRow key := by
  rintro rfl
  obtain ⟨-, hlater, hcross⟩ := List.pairwise_append.mp (rows_pairwise hsorted hrows)
  rcases h with hbefore | hafter
  · have hself := hcross _ hbefore _ List.mem_cons_self
    exact hself.asymm hself
  · have hself := (List.pairwise_cons.mp hlater).1 _ hafter
    exact hself.asymm hself

variable (hnames : ∀ key ∈ keys, keyNameError key = none)

include hnames

theorem mem_enclosing_iff (h : row ∈ (buildRows filter collapsed keys).rows) {folder : Bytes} :
    folder ∈ enclosing row ↔ InFolder folder row ∧ folder.getLast? = some slash := by
  rw [mem_enclosing hsorted hnames h, mem_foldersOf]
  refine ⟨?_, ?_⟩
  · rintro ⟨⟨hstarts, hslash⟩, hlength⟩
    refine ⟨⟨hstarts, ?_⟩, hslash⟩
    rintro rfl
    exact lt_irrefl _ hlength
  · rintro ⟨⟨hstarts, hne⟩, hslash⟩
    exact ⟨⟨hstarts, hslash⟩, lt_of_le_of_ne hstarts.length_le fun h => hne (hstarts.eq_of_length h)⟩

theorem folderRow_mem (h : row ∈ (buildRows filter collapsed keys).rows) {folder : Bytes}
    (hfolder : folder ∈ enclosing row) :
    folderRow folder ∈ (buildRows filter collapsed keys).rows ∧ (folderRow folder).Before row := by
  obtain ⟨⟨hstarts, hne⟩, hslash⟩ := (mem_enclosing_iff hsorted hnames h).mp hfolder
  obtain ⟨hshown, key, hkey, hmatches, hkind⟩ := (mem_buildRows hsorted row).mp h
  obtain ⟨above, below, hsplit⟩ := List.append_of_mem hfolder
  have hfolders := foldersOf_enclosing hsplit
  refine ⟨(mem_buildRows hsorted _).mpr ⟨?_, key, hkey, hmatches, Or.inr ⟨folder, ?_, rfl⟩⟩,
    Or.inl (PrefixOrder.lt_of_prefix hstarts hne)⟩
  · rw [isShown, enclosing_folderRow hfolders]
    rw [isShown, hsplit, List.any_append, Bool.not_or, Bool.and_eq_true] at hshown
    exact hshown.1
  · refine mem_foldersOf.mpr ⟨hstarts.trans ?_, hslash⟩
    rcases hkind with rfl | ⟨outer, houter, rfl⟩
    · exact List.prefix_rfl
    · exact (mem_foldersOf.mp houter).1

theorem inFolder_iff (h : row ∈ (buildRows filter collapsed keys).rows) :
    InFolder (folderPrefix key) row ↔ foldersOf key <+: enclosing row := by
  have hlast := foldersOf_getLast key
  cases hfolders : foldersOf key using List.reverseRecOn with
  | nil =>
    rw [hfolders] at hlast
    rw [← hlast]
    exact ⟨fun _ => List.nil_prefix, fun _ => ⟨List.nil_prefix, (row_id_ne_nil hsorted hnames h).symm⟩⟩
  | append_singleton above folder =>
    rw [hfolders, List.getLast?_concat, Option.getD_some] at hlast
    rw [← hlast]
    have hmem : folder ∈ foldersOf key := by rw [hfolders]; simp
    have hslash := (mem_foldersOf.mp hmem).2
    have hself := foldersOf_split hfolders
    refine ⟨?_, ?_⟩
    · intro hin
      obtain ⟨above', below, hsplit⟩ :=
        List.append_of_mem ((mem_enclosing_iff hsorted hnames h).mpr ⟨hin, hslash⟩)
      rw [← hself, foldersOf_enclosing hsplit, hsplit]
      exact ⟨below, by rw [List.append_assoc]; rfl⟩
    · intro hstarts
      have hin : folder ∈ enclosing row := hstarts.subset (by simp)
      exact ((mem_enclosing_iff hsorted hnames h).mp hin).1

/-- Rows as deep as the deleted one, or deeper, while they last, are those of its folder. -/
theorem depth_of_inFolder (h : row ∈ (buildRows filter collapsed keys).rows)
    (hin : InFolder (folderPrefix key) row) :
    (foldersOf key).length ≤ row.depth ∧
      (row.depth = (foldersOf key).length ↔ isSibling (keyRow key) row = true) := by
  have hstarts := (inFolder_iff hsorted hnames h).mp hin
  rw [buildRows_depth hsorted h]
  refine ⟨hstarts.length_le, ?_⟩
  rw [isSibling, decide_eq_true_iff]
  refine ⟨fun hlength => (hstarts.eq_of_length hlength.symm).symm, fun hsame => ?_⟩
  rw [hsame]
  rfl

theorem inFolder_of_sibling (h : row ∈ (buildRows filter collapsed keys).rows)
    (hsibling : isSibling (keyRow key) row = true) : InFolder (folderPrefix key) row := by
  rw [isSibling, decide_eq_true_iff] at hsibling
  exact (inFolder_iff hsorted hnames h).mpr (by rw [hsibling]; exact List.prefix_rfl)

/-- A row that is as deep as the deleted one lies in a folder of that depth, whose row is above
it. After the deleted row that can only be the same folder, or a later one. -/
theorem depth_lt_after {run rest : List Row} {x : Row}
    (hrows : (buildRows filter collapsed keys).rows = before ++ keyRow key :: (run ++ x :: rest))
    (hrun : ∀ y ∈ run, InFolder (folderPrefix key) y) (hx : ¬InFolder (folderPrefix key) x) :
    x.depth < (foldersOf key).length := by
  have hpairwise := rows_pairwise hsorted hrows
  have hin : x ∈ (buildRows filter collapsed keys).rows := by rw [hrows]; simp
  by_contra hdeep
  rw [buildRows_depth hsorted hin, not_lt] at hdeep
  have hlast := foldersOf_getLast key
  cases hfolders : foldersOf key using List.reverseRecOn with
  | nil =>
    rw [hfolders] at hlast
    rw [← hlast] at hx
    exact hx ⟨List.nil_prefix, (row_id_ne_nil hsorted hnames hin).symm⟩
  | append_singleton above folder =>
    rw [hfolders, List.length_append, List.length_singleton] at hdeep
    obtain ⟨as, g, bs, hsplit, hlength⟩ : ∃ as g bs, enclosing x = as ++ g :: bs ∧ as.length = above.length :=
      ⟨_, _, _, (List.take_append_drop above.length _).symm.trans
        (congrArg _ (List.drop_eq_getElem_cons hdeep)), List.length_take_of_le (by omega)⟩
    have hg := foldersOf_enclosing hsplit
    have hmem : g ∈ enclosing x := by rw [hsplit]; simp
    obtain ⟨hrow, hbefore⟩ := folderRow_mem hsorted hnames hin hmem
    obtain ⟨hinside, hslash⟩ := (mem_enclosing_iff hsorted hnames hin).mp hmem
    have hrow' := hrow
    rw [hrows, List.mem_append, List.mem_cons, List.mem_append, List.mem_cons] at hrow'
    obtain ⟨-, hlater, hcross⟩ := List.pairwise_append.mp hpairwise
    obtain ⟨hafter, hlater⟩ := List.pairwise_cons.mp hlater
    rcases hrow' with hfirst | heq | hbetween | heq | hlast'
    · -- then it is the folder of the deleted row
      have hstarts := PrefixOrder.prefix_of_between (hcross _ hfirst _ List.mem_cons_self).isLE
        (hafter x (by simp)).isLE List.prefix_rfl hinside.1
      obtain ⟨above', below, hkey⟩ := List.append_of_mem (mem_foldersOf.mpr ⟨hstarts, hslash⟩ : g ∈ foldersOf key)
      have habove : above' = as := List.append_cancel_right ((foldersOf_split hkey).symm.trans hg)
      rw [hkey, habove] at hfolders
      obtain ⟨-, hsame⟩ := List.append_inj hfolders hlength
      rw [hkey, habove, hfolders, List.getLast?_concat, Option.getD_some, ← (List.cons.inj hsame).1] at hlast
      rw [← hlast] at hx
      exact hx hinside
    · cases (congrArg Row.dir heq : true = false)
    · have hdeeper := ((inFolder_iff hsorted hnames hrow).mp (hrun _ hbetween)).length_le
      rw [enclosing_folderRow hg, hfolders, List.length_append, List.length_singleton] at hdeeper
      omega
    · rw [← heq] at hinside
      exact hinside.2 rfl
    · have hback := (List.pairwise_cons.mp (List.pairwise_append.mp hlater).2.1).1 _ hlast'
      exact hback.asymm hbefore

theorem depth_lt_before {run rest : List Row} {x : Row}
    (hrows : (buildRows filter collapsed keys).rows = (rest ++ x :: run) ++ keyRow key :: after)
    (hrun : ∀ y ∈ run, InFolder (folderPrefix key) y) (hx : ¬InFolder (folderPrefix key) x) :
    x.depth < (foldersOf key).length := by
  have hpairwise := rows_pairwise hsorted hrows
  have hin : x ∈ (buildRows filter collapsed keys).rows := by rw [hrows]; simp
  have hdeleted : keyRow key ∈ (buildRows filter collapsed keys).rows := by rw [hrows]; simp
  have hlast := foldersOf_getLast key
  cases hfolders : foldersOf key using List.reverseRecOn with
  | nil =>
    rw [hfolders] at hlast
    rw [← hlast] at hx
    exact (hx ⟨List.nil_prefix, (row_id_ne_nil hsorted hnames hin).symm⟩).elim
  | append_singleton above folder =>
    rw [hfolders, List.getLast?_concat, Option.getD_some] at hlast
    rw [← hlast] at hx hrun
    have hg := foldersOf_split hfolders
    have hmem : folder ∈ enclosing (keyRow key) := by
      have hsame : enclosing (keyRow key) = above ++ [folder] := hfolders
      rw [hsame]
      simp
    obtain ⟨hrow, hbefore⟩ := folderRow_mem hsorted hnames hdeleted hmem
    have hrow' := hrow
    rw [hrows, List.append_assoc, List.cons_append, List.mem_append, List.mem_cons, List.mem_append,
      List.mem_cons] at hrow'
    rw [List.append_assoc, List.cons_append] at hpairwise
    obtain ⟨-, hlater, hcross⟩ := List.pairwise_append.mp hpairwise
    obtain ⟨hafter, hlater⟩ := List.pairwise_cons.mp hlater
    obtain ⟨-, hlater, hcross'⟩ := List.pairwise_append.mp hlater
    rcases hrow' with hfirst | heq | hbetween | heq | hlast'
    · have hbefore' := hcross _ hfirst x List.mem_cons_self
      have hstarts := PrefixOrder.prefix_of_between hbefore'.isLE (hafter (keyRow key) (by simp)).isLE
        List.prefix_rfl ((mem_enclosing_iff hsorted hnames hdeleted).mp hmem).1.1
      refine absurd ⟨hstarts, fun hsame => ?_⟩ hx
      have heq : folderRow folder = x := row_eq_of_id hsorted hnames hrow hin hsame
      rw [heq] at hbefore'
      exact hbefore'.asymm hbefore'
    · rw [← heq, folderRow, hg, List.dropLast_concat, List.length_append]
      exact Nat.lt_succ_self _
    · exact absurd rfl (hrun _ hbetween).2
    · cases (congrArg Row.dir heq : true = false)
    · exact absurd hbefore ((List.pairwise_cons.mp hlater).1 _ hlast').asymm

/-- The next row of the same depth, while none is less deep, is the next sibling. -/
theorem next_eq (hkey : keyNameError key = none)
    (hrows : (buildRows filter collapsed keys).rows = before ++ keyRow key :: after) :
    (after.takeWhile ((foldersOf key).length ≤ ·.depth)).find? (·.depth = (foldersOf key).length) =
      after.find? (isSibling (keyRow key)) := by
  have hall : ∀ x ∈ after, x ∈ (buildRows filter collapsed keys).rows := by
    intro x hx
    rw [hrows]
    simp [hx]
  obtain ⟨hafter, hlater⟩ := List.pairwise_cons.mp (List.pairwise_append.mp (rows_pairwise hsorted hrows)).2.1
  refine find?_takeWhile (s := InFolder (folderPrefix key)) ?_ ?_ ?_ ?_
  · intro x hx hin
    obtain ⟨hdeep, hsame⟩ := depth_of_inFolder hsorted hnames (hall x hx) hin
    exact ⟨decide_eq_true hdeep, Bool.eq_iff_iff.mpr (decide_eq_true_iff.trans hsame)⟩
  · exact fun x hx => inFolder_of_sibling hsorted hnames (hall x hx)
  · refine hlater.imp_of_mem ?_
    intro x y hx _ hbefore hy
    exact (deleted_inFolder hkey).between (hafter x hx) hbefore hy
  · intro run x rest hsplit hrun hx
    rw [hsplit] at hrows
    exact decide_eq_false (not_le.mpr (depth_lt_after hsorted hnames hrows hrun hx))

theorem previous_eq (hkey : keyNameError key = none)
    (hrows : (buildRows filter collapsed keys).rows = before ++ keyRow key :: after) :
    (before.reverse.takeWhile ((foldersOf key).length ≤ ·.depth)).find? (·.depth = (foldersOf key).length) =
      before.reverse.find? (isSibling (keyRow key)) := by
  have hall : ∀ x ∈ before.reverse, x ∈ (buildRows filter collapsed keys).rows := by
    intro x hx
    rw [hrows]
    simp [List.mem_reverse.mp hx]
  obtain ⟨hearlier, -, hcross⟩ := List.pairwise_append.mp (rows_pairwise hsorted hrows)
  refine find?_takeWhile (s := InFolder (folderPrefix key)) ?_ ?_ ?_ ?_
  · intro x hx hin
    obtain ⟨hdeep, hsame⟩ := depth_of_inFolder hsorted hnames (hall x hx) hin
    exact ⟨decide_eq_true hdeep, Bool.eq_iff_iff.mpr (decide_eq_true_iff.trans hsame)⟩
  · exact fun x hx => inFolder_of_sibling hsorted hnames (hall x hx)
  · rw [List.pairwise_reverse]
    refine hearlier.imp_of_mem ?_
    intro y x _ hx hbefore hy
    exact hy.between hbefore (hcross x hx (keyRow key) List.mem_cons_self) (deleted_inFolder hkey)
  · intro run x rest hsplit hrun hx
    have hbefore : before = rest.reverse ++ x :: run.reverse := by
      rw [← List.reverse_reverse before, hsplit]
      simp
    rw [hbefore] at hrows
    exact decide_eq_false (not_le.mpr (depth_lt_before hsorted hnames hrows
      (fun y hy => hrun y (List.mem_reverse.mp hy)) hx))

theorem sibling_stays (h : row ∈ (buildRows filter collapsed keys).rows)
    (hne : row ≠ keyRow key) (hsibling : isSibling (keyRow key) row = true) :
    row ∈ (buildRows filter collapsed (keys.erase key)).rows := by
  rw [isSibling, decide_eq_true_iff] at hsibling
  obtain ⟨hshown, k, hk, hmatches, hkind⟩ := (mem_buildRows hsorted row).mp h
  refine (mem_rebuilt hsorted row).mpr ⟨hshown, k, hk, ?_, hmatches, hkind⟩
  rintro rfl
  rcases hkind with rfl | ⟨folder, hfolder, rfl⟩
  · exact hne rfl
  · have hmem : folder ∈ enclosing (folderRow folder) := by
      rw [hsibling]
      exact hfolder
    exact ((mem_enclosing_iff hsorted hnames h).mp hmem).1.2 rfl

/-- Of the ids the code gives, all but the folders have a row after the delete. -/
theorem landing_eq (hkey : keyNameError key = none)
    (hrows : (buildRows filter collapsed keys).rows = before ++ keyRow key :: after) :
    (deleteLanding (before ++ keyRow key :: after) before.length).find?
        (namesRow (buildRows filter collapsed (keys.erase key)).rows) =
      ((after.find? (isSibling (keyRow key))).map Row.id).or (((before.reverse.find? (isSibling (keyRow key))).map
        Row.id).or (((foldersOf key).reverse.find?
        (namesRow (buildRows filter collapsed (keys.erase key)).rows)).or
          ((before.reverse.find? fun row => !row.id.isPrefixOf key).map Row.id))) := by
  have hselected : (before ++ keyRow key :: after)[before.length]? = some (keyRow key) := by simp
  have hdrop : (before ++ keyRow key :: after).drop (before.length + 1) = after := by simp
  have hmem : ∀ row, row ∈ before ∨ row ∈ after → row ∈ (buildRows filter collapsed keys).rows := by
    intro row hrow
    rw [hrows, List.mem_append, List.mem_cons]
    exact hrow.imp_right Or.inr
  have hsibling : ∀ row, row ∈ before ∨ row ∈ after → isSibling (keyRow key) row = true →
      namesRow (buildRows filter collapsed (keys.erase key)).rows row.id = true := by
    intro row hrow hs
    exact namesRow_of_mem (sibling_stays hsorted hnames (hmem row hrow) (ne_deleted hsorted hrows hrow) hs)
  rw [deleteLanding, hselected]
  dsimp only
  rw [hdrop, List.take_left]
  have hnext := next_eq hsorted hnames hkey hrows
  have hprevious := previous_eq hsorted hnames hkey hrows
  have hdepth : (keyRow key).depth = (foldersOf key).length := rfl
  have hnextStays : ∀ row, after.find? (isSibling (keyRow key)) = some row →
      namesRow (buildRows filter collapsed (keys.erase key)).rows row.id = true := fun row hfound =>
    hsibling row (Or.inr (List.mem_of_find?_eq_some hfound)) (List.find?_some hfound)
  have hpreviousStays : ∀ row, before.reverse.find? (isSibling (keyRow key)) = some row →
      namesRow (buildRows filter collapsed (keys.erase key)).rows row.id = true := fun row hfound =>
    hsibling row (Or.inl (List.mem_reverse.mp (List.mem_of_find?_eq_some hfound))) (List.find?_some hfound)
  have haboveStays : ∀ row, (before.reverse.find? fun row => !row.id.isPrefixOf key) = some row →
      namesRow (buildRows filter collapsed (keys.erase key)).rows row.id = true := by
    intro row hfound
    have hnot := List.find?_some hfound
    rw [Bool.not_eq_true', Bool.eq_false_iff, ne_eq, List.isPrefixOf_iff_prefix] at hnot
    exact namesRow_of_mem (stays hsorted
      (hmem row (Or.inl (List.mem_reverse.mp (List.mem_of_find?_eq_some hfound)))) hnot)
  have hid : (keyRow key).id = key := rfl
  rw [hdepth, hid, hnext, hprevious, List.find?_append, List.find?_append, List.find?_append,
    find?_toList hnextStays, find?_toList hpreviousStays, find?_toList haboveStays, Option.or_assoc,
    Option.or_assoc]

theorem alone_iff (hrows : (buildRows filter collapsed keys).rows = before ++ keyRow key :: after)
    (hfolders : foldersOf key ≠ []) :
    (∀ k ∈ keys, containsIgnoreCase k filter = true → outermost (keyRow key) <+: k → k = key) ↔
      after.find? (isSibling (keyRow key)) = none ∧ before.reverse.find? (isSibling (keyRow key)) = none ∧
        (foldersOf key).reverse.find? (namesRow (buildRows filter collapsed (keys.erase key)).rows) = none := by
  obtain ⟨houter, hself, hwithin⟩ := outermost_spec hfolders
  refine ⟨fun halone => ?_, ?_⟩
  · have hempty : ∀ row ∈ (buildRows filter collapsed (keys.erase key)).rows,
        ¬outermost (keyRow key) <+: row.id := by
      intro row hrow hstarts
      obtain ⟨-, k, hk, hne, hmatches, hkind⟩ := (mem_rebuilt hsorted row).mp hrow
      refine hne (halone k hk hmatches (hstarts.trans ?_))
      rcases hkind with rfl | ⟨folder, hfolder, rfl⟩
      · exact List.prefix_rfl
      · exact (mem_foldersOf.mp hfolder).1
    have hnone : ∀ row, row ∈ before ∨ row ∈ after → ¬isSibling (keyRow key) row = true := by
      intro row hrow hsibling
      have hmem : row ∈ (buildRows filter collapsed keys).rows := by
        rw [hrows, List.mem_append, List.mem_cons]
        exact hrow.imp_right Or.inr
      refine hempty row (sibling_stays hsorted hnames hmem (ne_deleted hsorted hrows hrow) hsibling) ?_
      rw [isSibling, decide_eq_true_iff] at hsibling
      have hin : outermost (keyRow key) ∈ enclosing row := by
        rw [hsibling]
        exact houter
      exact ((mem_enclosing_iff hsorted hnames hmem).mp hin).1.1
    refine ⟨List.find?_eq_none.mpr fun row h => hnone row (Or.inr h),
      List.find?_eq_none.mpr fun row h => hnone row (Or.inl (List.mem_reverse.mp h)), List.find?_eq_none.mpr ?_⟩
    intro folder hfolder hnamed
    obtain ⟨row, hrow, hid⟩ := List.any_eq_true.mp hnamed
    refine hempty row hrow ?_
    rw [of_decide_eq_true hid]
    exact hwithin folder (List.mem_reverse.mp hfolder)
  · rintro ⟨-, -, hgone⟩ k hk hmatches hstarts
    by_contra hne
    have hshown : isShown filter collapsed (folderRow (outermost (keyRow key))) = true := by
      rw [isShown, enclosing_folderRow hself]
      rfl
    have hrow : folderRow (outermost (keyRow key)) ∈ (buildRows filter collapsed (keys.erase key)).rows :=
      (mem_rebuilt hsorted _).mpr
        ⟨hshown, k, hk, hne, hmatches, Or.inr ⟨_, mem_foldersOf_of_starts houter hstarts, rfl⟩⟩
    exact List.find?_eq_none.mp hgone _ (List.mem_reverse.mpr houter) (namesRow_of_mem hrow)

/-- Where the deleted key is alone in its outermost folder, the code looks only at the rows above
that folder. -/
theorem above_eq
    (hrows : (buildRows filter collapsed keys).rows = before ++ keyRow key :: after)
    (hfolders : foldersOf key ≠ [])
    (halone : ∀ k ∈ keys, containsIgnoreCase k filter = true → outermost (keyRow key) <+: k → k = key) :
    (before.reverse.find? fun row => !row.id.isPrefixOf key) =
      ((before ++ keyRow key :: after).takeWhile (·.id ≠ outermost (keyRow key))).reverse.find?
        fun row => !row.id.isPrefixOf key := by
  obtain ⟨houter, -, -⟩ := outermost_spec hfolders
  have hdeleted : keyRow key ∈ (buildRows filter collapsed keys).rows := by rw [hrows]; simp
  have hpairwise := rows_pairwise hsorted hrows
  obtain ⟨hrow, hbefore⟩ := folderRow_mem hsorted hnames hdeleted houter
  have hin : folderRow (outermost (keyRow key)) ∈ before := by
    rw [hrows, List.mem_append, List.mem_cons] at hrow
    rcases hrow with hbefore | heq | hafter
    · exact hbefore
    · cases (congrArg Row.dir heq : true = false)
    · exact absurd hbefore ((List.pairwise_cons.mp (List.pairwise_append.mp hpairwise).2.1).1 _ hafter).asymm
  obtain ⟨top, inner, rfl⟩ := List.append_of_mem hin
  obtain ⟨hrising, -, hcross⟩ := List.pairwise_append.mp hpairwise
  obtain ⟨-, hinner, htop⟩ := List.pairwise_append.mp hrising
  have hstop : decide ((folderRow (outermost (keyRow key))).id ≠ outermost (keyRow key)) = false :=
    decide_eq_false (not_not.mpr rfl)
  have habove : ((top ++ folderRow (outermost (keyRow key)) :: inner) ++ keyRow key :: after).takeWhile
      (·.id ≠ outermost (keyRow key)) = top := by
    rw [List.append_assoc, List.takeWhile_append_of_pos, List.cons_append, List.takeWhile_cons, hstop]
    · exact List.append_nil top
    · intro row hrow'
      refine decide_eq_true fun hid => ?_
      have hmem : row ∈ (buildRows filter collapsed keys).rows := by rw [hrows]; simp [hrow']
      have hself := htop row hrow' _ List.mem_cons_self
      rw [row_eq_of_id hsorted hnames hmem hrow hid] at hself
      exact hself.asymm hself
  have hskipped : ((folderRow (outermost (keyRow key)) :: inner).reverse.find? fun row =>
      !row.id.isPrefixOf key) = none := by
    refine List.find?_eq_none.mpr fun row hrow' => ?_
    rw [List.mem_reverse] at hrow'
    rw [Bool.not_eq_true', Bool.not_eq_false, List.isPrefixOf_iff_prefix]
    have hstarts : outermost (keyRow key) <+: row.id := by
      rcases List.mem_cons.mp hrow' with rfl | hmore
      · exact List.prefix_rfl
      · exact PrefixOrder.prefix_of_between ((List.pairwise_cons.mp hinner).1 row hmore).isLE
          (hcross row (by simp [hmore]) (keyRow key) List.mem_cons_self).isLE List.prefix_rfl
          (mem_foldersOf.mp houter).1
    have hmem : row ∈ (buildRows filter collapsed keys).rows := by
      rw [hrows, List.mem_append, List.mem_append]
      exact Or.inl (Or.inr hrow')
    obtain ⟨k, hk, hmatches, hwithin⟩ := exists_key hsorted hmem
    rw [← halone k hk hmatches (hstarts.trans hwithin)]
    exact hwithin
  rw [habove, List.reverse_append, List.find?_append, hskipped, Option.none_or]

theorem first_outside {first : Row} {rest : List Row}
    (hrows : (buildRows filter collapsed keys).rows = first :: rest) : enclosing first = [] := by
  have hlisted : Listed filter collapsed _ (buildRows filter collapsed keys) := buildRows_listed hsorted
  have hpairwise := hlisted.sorted
  rw [hrows] at hpairwise
  refine List.eq_nil_iff_forall_not_mem.mpr fun folder hfolder => ?_
  obtain ⟨hrow, hbefore⟩ := folderRow_mem hsorted hnames (by rw [hrows]; exact List.mem_cons_self) hfolder
  rw [hrows] at hrow
  rcases List.mem_cons.mp hrow with heq | hlater
  · rw [heq] at hbefore
    exact hbefore.asymm hbefore
  · exact ((List.pairwise_cons.mp hpairwise).1 _ hlater).asymm hbefore

theorem before_nil
    (hrows : (buildRows filter collapsed keys).rows = before ++ keyRow key :: after)
    (hfolders : foldersOf key = [])
    (hprevious : before.reverse.find? (isSibling (keyRow key)) = none) : before = [] := by
  cases before with
  | nil => rfl
  | cons first more =>
    have hfirst := first_outside hsorted hnames hrows
    refine absurd ?_ (List.find?_eq_none.mp hprevious first (by simp))
    rw [isSibling, hfirst]
    exact decide_eq_true hfolders.symm

end

/-- Nothing else that matches is in the deleted key's outermost folder, and the row above that
folder passes for one of the folders: its id is a prefix of the key. -/
def Overshoots (filter : Bytes) (keys : List Bytes) (rows : List Row) (deleted : Row) : Prop :=
  foldersOf deleted.id ≠ [] ∧
    (∀ key ∈ keys, containsIgnoreCase key filter = true → outermost deleted <+: key → key = deleted.id) ∧
    ∃ row, rowAbove rows deleted = some row ∧ row.id <+: deleted.id

/-- The first id that has a row after the delete is the promised one. -/
structure Lands (rows rebuilt : List Row) (selected : Nat) (deleted : Row) : Prop where
  promised : (deleteLanding rows selected).find? (namesRow rebuilt) =
    promisedLanding rows rebuilt selected deleted
  onlyTop : (deleteLanding rows selected).find? (namesRow rebuilt) = none → rowAbove rows deleted = none

theorem promisedLanding_none {rows rebuilt : List Row} {selected : Nat} {deleted : Row}
    (h : promisedLanding rows rebuilt selected deleted = none) : rowAbove rows deleted = none := by
  unfold promisedLanding at h
  rw [Option.or_eq_none_iff, Option.or_eq_none_iff, Option.or_eq_none_iff] at h
  exact Option.map_eq_none_iff.mp h.2.2.2

theorem lands_promised {rows rebuilt : List Row} {selected : Nat} {deleted : Row} :
    Lands rows rebuilt selected deleted ↔
      (deleteLanding rows selected).find? (namesRow rebuilt) = promisedLanding rows rebuilt selected deleted :=
  ⟨Lands.promised, fun h => ⟨h, fun hnone => promisedLanding_none (h.symm.trans hnone)⟩⟩

theorem or_eq_or_iff {α : Type*} {a b c : Option α} : a.or b = a.or c ↔ (a = none → b = c) := by
  cases a with
  | none => exact ⟨fun h _ => h, fun h => h rfl⟩
  | some x => exact ⟨fun _ => nofun, fun _ => rfl⟩

/-- Where the last search is all that counts, it finds the row above unless it skips it. -/
theorem last_eq_iff (rows : List Row) (key : Bytes) :
    (rows.reverse.find? fun row => !row.id.isPrefixOf key).map Row.id = rows.getLast?.map Row.id ↔
      ¬∃ row, rows.getLast? = some row ∧ row.id <+: key := by
  cases rows using List.reverseRecOn with
  | nil => exact ⟨fun _ => nofun, fun _ => rfl⟩
  | append_singleton rows last =>
    rw [List.reverse_append, List.reverse_singleton, List.singleton_append, List.getLast?_concat]
    by_cases hskip : last.id <+: key
    · have hskipped : (!last.id.isPrefixOf key) = false := by
        rw [List.isPrefixOf_iff_prefix.mpr hskip]
        rfl
      refine ⟨fun hsame => ?_, fun hnot => absurd ⟨last, rfl, hskip⟩ hnot⟩
      rw [List.find?_cons_of_neg (by rw [hskipped]; exact Bool.false_ne_true), Option.map_some,
        Option.map_eq_some_iff] at hsame
      obtain ⟨row, hfound, hid⟩ := hsame
      have hnot := List.find?_some hfound
      rw [hid, hskipped] at hnot
      cases hnot
    · have hfound : (!last.id.isPrefixOf key) = true := by
        rw [Bool.not_eq_true', Bool.eq_false_iff, ne_eq, List.isPrefixOf_iff_prefix]
        exact hskip
      refine ⟨fun _ => ?_, fun _ => congrArg (Option.map Row.id) (List.find?_cons_of_pos hfound)⟩
      rintro ⟨row, hrow, hstarts⟩
      rw [← Option.some.inj hrow] at hstarts
      exact hskip hstarts

theorem lands_iff {keys : List Bytes} (hsorted : keys.Pairwise fun a b => compare a b = .lt)
    (hnames : ∀ key ∈ keys, keyNameError key = none) (filter : Bytes) (collapsed : Collapsed) {selected : Nat}
    {deleted : Row} (hselected : (buildRows filter collapsed keys).rows[selected]? = some deleted)
    (hsecret : deleted.dir = false) :
    Lands (buildRows filter collapsed keys).rows
    (buildRows filter collapsed (keys.erase deleted.id)).rows selected
        deleted ↔ ¬Overshoots filter keys (buildRows filter collapsed keys).rows deleted := by
  have hmem := List.mem_of_getElem? hselected
  obtain ⟨-, key, hkey, -, rfl | ⟨folder, -, rfl⟩⟩ := (mem_buildRows hsorted deleted).mp hmem
  · obtain ⟨before, after, hrows, rfl⟩ : ∃ before after,
        (buildRows filter collapsed keys).rows = before ++ keyRow key :: after ∧ before.length = selected := by
      obtain ⟨hlt, hget⟩ := List.getElem?_eq_some_iff.mp hselected
      refine ⟨_, (buildRows filter collapsed keys).rows.drop (selected + 1), ?_, List.length_take_of_le hlt.le⟩
      rw [← hget, List.getElem_cons_drop, List.take_append_drop]
    have hnext : nextSibling (before ++ keyRow key :: after) before.length (keyRow key) =
        after.find? (isSibling (keyRow key)) := by
      have hdrop : (before ++ keyRow key :: after).drop (before.length + 1) = after := by simp
      rw [nextSibling, hdrop]
    have hprevious : previousSibling (before ++ keyRow key :: after) before.length (keyRow key) =
        before.reverse.find? (isSibling (keyRow key)) := by
      rw [previousSibling, List.take_left]
    have hlanding := landing_eq hsorted hnames (hnames key hkey) hrows
    have hfolders : enclosing (keyRow key) = foldersOf key := rfl
    have hid : (keyRow key).id = key := rfl
    rw [hrows, hid, lands_promised, promisedLanding, hnext, hprevious, hlanding, hfolders, or_eq_or_iff,
      or_eq_or_iff, or_eq_or_iff, Option.map_eq_none_iff, Option.map_eq_none_iff]
    by_cases hnil : foldersOf key = []
    · have hshort : ¬Overshoots filter keys (before ++ keyRow key :: after) (keyRow key) := fun h => h.1 hnil
      refine ⟨fun _ => hshort, fun _ _ hlone _ => ?_⟩
      obtain rfl := before_nil hsorted hnames hrows hnil hlone
      have htop : rowAbove ([] ++ keyRow key :: after) (keyRow key) = none := by
        have houter : outermost (keyRow key) = key := by
          rw [outermost, hid, hnil]
          rfl
        rw [rowAbove, houter, List.nil_append, List.takeWhile_cons_of_neg]
        · rfl
        · rw [hid, decide_eq_true_iff, not_not]
      rw [htop]
      rfl
    · have hfirst := alone_iff hsorted hnames hrows hnil
      by_cases halone : ∀ k ∈ keys, containsIgnoreCase k filter = true → outermost (keyRow key) <+: k → k = key
      · obtain ⟨hnext, hprevious, hgone⟩ := hfirst.mp halone
        have hlast := last_eq_iff ((before ++ keyRow key :: after).takeWhile (·.id ≠ outermost (keyRow key))) key
        rw [← above_eq hsorted hnames hrows hnil halone] at hlast
        exact ⟨fun h hover => hlast.mp (h hnext hprevious hgone) hover.2.2,
          fun hover _ _ _ => hlast.mpr fun hrow => hover ⟨hnil, halone, hrow⟩⟩
      · exact ⟨fun _ hover => halone hover.2.1,
          fun _ hnext hprevious hgone => absurd (hfirst.mpr ⟨hnext, hprevious, hgone⟩) halone⟩
  · cases hsecret

theorem lands_beside : Lands (buildRows [] ∅ [text "a", text "de/K"]).rows
    (buildRows [] ∅ ([text "a", text "de/K"].erase (text "de/K"))).rows 2 (keyRow (text "de/K")) := by
  have hsorted : [text "a", text "de/K"].Pairwise fun a b => compare a b = .lt := by decide
  have hnames : ∀ key ∈ [text "a", text "de/K"], keyNameError key = none := by decide
  have hselected : (buildRows [] ∅ [text "a", text "de/K"]).rows[2]? = some (keyRow (text "de/K")) := by decide
  refine (lands_iff hsorted hnames [] ∅ hselected rfl).mpr ?_
  rintro ⟨-, -, row, hrow, hstarts⟩
  have habove : rowAbove (buildRows [] ∅ [text "a", text "de/K"]).rows (keyRow (text "de/K")) =
      some (keyRow (text "a")) := by decide
  obtain rfl := Option.some.inj (habove.symm.trans hrow)
  exact absurd hstarts (by decide)

/-- A key that shares its first letters with a folder is passed over. -/
theorem not_lands_beside : [text "a", text "d", text "de/K"].Pairwise (fun a b => compare a b = .lt) ∧
    (∀ key ∈ [text "a", text "d", text "de/K"], keyNameError key = none) ∧
    (buildRows [] ∅ [text "a", text "d", text "de/K"]).rows[3]? = some (keyRow (text "de/K")) ∧
    ¬Lands (buildRows [] ∅ [text "a", text "d", text "de/K"]).rows
      (buildRows [] ∅ ([text "a", text "d", text "de/K"].erase (text "de/K"))).rows 3 (keyRow (text "de/K")) := by
  refine ⟨by decide, by decide, by decide, fun h => ?_⟩
  have hpromised := h.promised
  revert hpromised
  decide

end Secretov
