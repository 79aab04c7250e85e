import Secretov.Lib.PrefixOrder
import Secretov.TuiEdit

/-! The folders that enclose a key (tui_edit.cpp): they are prefixes of one another. -/

namespace Secretov

theorem mem_foldersOf {key folder : Bytes} :
    folder ∈ foldersOf key ↔ folder <+: key ∧ folder.getLast? = some slash := by
  rw [foldersOf, List.mem_filter, List.mem_inits, decide_eq_true_iff]

theorem foldersOf_pairwise (key : Bytes) : (foldersOf key).Pairwise fun a b => a <+: b ∧ a ≠ b :=
  (PrefixOrder.inits_pairwise key).filter _

theorem not_both_proper {a b : Bytes} (h : a <+: b ∧ a ≠ b) : ¬(b <+: a ∧ b ≠ a) := by
  intro h'
  exact h.2 (h.1.eq_of_length_le h'.1.length_le)

/-- The folders around a folder, and the folder itself, come first. -/
theorem foldersOf_split {key folder : Bytes} {above below : List Bytes}
    (h : foldersOf key = above ++ folder :: below) : foldersOf folder = above ++ [folder] := by
  have hfolder : folder ∈ foldersOf key := by rw [h]; simp
  have hpairwise := foldersOf_pairwise key
  rw [h] at hpairwise
  obtain ⟨habove, hbelow, hcross⟩ := List.pairwise_append.mp hpairwise
  obtain ⟨hafter, -⟩ := List.pairwise_cons.mp hbelow
  have horder : (above ++ [folder]).Pairwise fun a b => a <+: b ∧ a ≠ b := by
    refine List.pairwise_append.mpr ⟨habove, List.pairwise_singleton _ _, ?_⟩
    intro a ha b hb
    rw [List.mem_singleton.mp hb]
    exact hcross a ha folder List.mem_cons_self
  refine PrefixOrder.eq_of_pairwise (fun _ _ => not_both_proper) (foldersOf_pairwise folder) horder ?_
  intro g
  rw [mem_foldersOf, List.mem_append, List.mem_singleton]
  refine ⟨?_, ?_⟩
  · rintro ⟨hg, hslash⟩
    have hmem : g ∈ foldersOf key := mem_foldersOf.mpr ⟨hg.trans (mem_foldersOf.mp hfolder).1, hslash⟩
    rw [h, List.mem_append, List.mem_cons] at hmem
    rcases hmem with hin | heq | hin
    · exact Or.inl hin
    · exact Or.inr heq
    · exact absurd ⟨hg, (hafter g hin).2.symm⟩ (not_both_proper (hafter g hin))
  · rintro (hin | rfl)
    · have hmem : g ∈ foldersOf key := by rw [h]; simp [hin]
      exact ⟨(hcross g hin folder List.mem_cons_self).1, (mem_foldersOf.mp hmem).2⟩
    · exact ⟨List.prefix_rfl, (mem_foldersOf.mp hfolder).2⟩

theorem mem_foldersOf_of_starts {key other folder : Bytes} (h : folder ∈ foldersOf key)
    (hother : folder <+: other) : folder ∈ foldersOf other :=
  mem_foldersOf.mpr ⟨hother, (mem_foldersOf.mp h).2⟩

/-- The shared folders go first in both lists; the next ones differ. -/
theorem sharedLength_spec (as bs : List Bytes) : ∃ common ra rb, as = common ++ ra ∧ bs = common ++ rb ∧
    common.length = sharedLength as bs ∧ ∀ a b, ra.head? = some a → rb.head? = some b → a ≠ b := by
  induction as generalizing bs with
  | nil => exact ⟨[], [], bs, rfl, rfl, by cases bs <;> rfl, nofun⟩
  | cons a as ih =>
    cases bs with
    | nil => exact ⟨[], a :: as, [], rfl, rfl, rfl, nofun⟩
    | cons b bs =>
      rw [sharedLength]
      by_cases hab : a = b
      · obtain ⟨common, ra, rb, has, hbs, hlength, hdiffer⟩ := ih bs
        refine ⟨a :: common, ra, rb, by rw [has]; rfl, by rw [hbs, hab]; rfl, ?_, hdiffer⟩
        rw [if_pos hab, List.length_cons, hlength]
      · refine ⟨[], a :: as, b :: bs, rfl, rfl, by rw [if_neg hab]; rfl, ?_⟩
        intro x y hx hy
        obtain rfl := Option.some.inj hx
        obtain rfl := Option.some.inj hy
        exact hab

/-- The folders that a key shares with another one go first; no other is the other's. -/
theorem foldersOf_shared (key other : Bytes) : ∃ common new,
    foldersOf key = common ++ new ∧ common.length = sharedLength (foldersOf key) (foldersOf other) ∧
      common = (foldersOf other).take (sharedLength (foldersOf key) (foldersOf other)) ∧
      ∀ folder ∈ new, ¬folder <+: other := by
  obtain ⟨common, new, rest, hkey, hother, hlength, hdiffer⟩ :=
      sharedLength_spec (foldersOf key) (foldersOf other)
  refine ⟨common, new, hkey, hlength, by rw [← hlength, hother, List.take_left], ?_⟩
  intro folder hfolder hstarts
  cases new with
  | nil => cases hfolder
  | cons first new =>
    have hpairwise := foldersOf_pairwise key
    rw [hkey] at hpairwise
    obtain ⟨hafter, -⟩ := List.pairwise_cons.mp (List.pairwise_append.mp hpairwise).2.1
    have hfirst : first <+: other := by
      rcases List.mem_cons.mp hfolder with rfl | hmore
      · exact hstarts
      · exact (hafter folder hmore).1.trans hstarts
    have hmem : first ∈ foldersOf key := by rw [hkey]; simp
    -- the first folder that is not shared would come right after the shared ones
    obtain ⟨above, below, hsplit⟩ := List.append_of_mem (mem_foldersOf_of_starts hmem hfirst)
    have hsame := (foldersOf_split hsplit).symm.trans (foldersOf_split hkey)
    rw [List.append_cancel_right hsame, hother] at hsplit
    have hrest := List.append_cancel_left hsplit
    exact hdiffer first first rfl (by rw [hrest]; rfl) rfl

/-! The last of the folders is what `folder_prefix` gives. -/

theorem folderPrefix_append (key : Bytes) : folderPrefix key ++ key.rtakeWhile (· ≠ slash) = key :=
  List.rdropWhile_append_rtakeWhile

theorem slash_not_mem_rtakeWhile (key : Bytes) : slash ∉ key.rtakeWhile (· ≠ slash) := by
  intro hmem
  exact absurd (List.mem_rtakeWhile_imp hmem) (by decide)

theorem folderPrefix_mem {key : Bytes} (h : folderPrefix key ≠ []) : folderPrefix key ∈ foldersOf key := by
  refine mem_foldersOf.mpr ⟨⟨_, folderPrefix_append key⟩, ?_⟩
  have hlast := List.rdropWhile_last_not (· ≠ slash) key h
  rw [decide_eq_true_iff, not_not] at hlast
  rw [List.getLast?_eq_some_getLast h]
  exact congrArg some hlast

theorem prefix_folderPrefix {key folder : Bytes} (h : folder ∈ foldersOf key) : folder <+: folderPrefix key := by
  obtain ⟨hstarts, hslash⟩ := mem_foldersOf.mp h
  obtain ⟨init, rfl⟩ := List.getLast?_eq_some_iff.mp hslash
  rcases List.prefix_or_prefix_of_prefix hstarts ⟨_, folderPrefix_append key⟩ with hin | ⟨longer, hover⟩
  · exact hin
  · obtain ⟨rest, hrest⟩ := hstarts
    have htext : folderPrefix key ++ (longer ++ rest) = folderPrefix key ++ key.rtakeWhile (· ≠ slash) := by
      rw [folderPrefix_append, ← List.append_assoc, hover, hrest]
    have htail := List.append_cancel_left htext
    cases longer using List.reverseRecOn with
    | nil =>
      rw [List.append_nil] at hover
      rw [hover]
    | append_singleton longer b =>
      rw [← List.append_assoc] at hover
      obtain ⟨-, hb⟩ := List.append_inj' hover rfl
      have hmem : slash ∈ key.rtakeWhile (· ≠ slash) := by
        rw [← htail, List.singleton_inj.mp hb]
        simp
      exact absurd hmem (slash_not_mem_rtakeWhile key)

theorem foldersOf_getLast (key : Bytes) : (foldersOf key).getLast?.getD [] = folderPrefix key := by
  cases hfolders : foldersOf key using List.reverseRecOn with
  | nil =>
    by_contra hne
    have hmem := folderPrefix_mem (Ne.symm hne)
    rw [hfolders] at hmem
    cases hmem
  | append_singleton above folder =>
    have hmem : folder ∈ foldersOf key := by rw [hfolders]; simp
    have hstarts := prefix_folderPrefix hmem
    have hne : folderPrefix key ≠ [] := by
      intro hnil
      rw [hnil, List.prefix_nil] at hstarts
      have hslash := (mem_foldersOf.mp hmem).2
      rw [hstarts] at hslash
      cases hslash
    have hlast := folderPrefix_mem hne
    have hpairwise := foldersOf_pairwise key
    rw [hfolders] at hlast hpairwise
    rw [List.getLast?_concat, Option.getD_some]
    rcases List.mem_append.mp hlast with habove | hsame
    · have hbefore := (List.pairwise_append.mp hpairwise).2.2 _ habove folder List.mem_cons_self
      exact (hbefore.2 (hbefore.1.eq_of_length_le hstarts.length_le)).elim
    · exact (List.mem_singleton.mp hsame).symm

theorem foldersOf_dropLast {folder : Bytes} {above : List Bytes} (h : foldersOf folder = above ++ [folder]) :
    foldersOf folder.dropLast = above := by
  have hmem : folder ∈ foldersOf folder := by rw [h]; simp
  have hpairwise := foldersOf_pairwise folder
  rw [h] at hpairwise
  obtain ⟨habove, -, hcross⟩ := List.pairwise_append.mp hpairwise
  refine PrefixOrder.eq_of_pairwise (fun _ _ => not_both_proper) (foldersOf_pairwise _) habove ?_
  obtain ⟨name, hname⟩ := List.getLast?_eq_some_iff.mp (mem_foldersOf.mp hmem).2
  have hdrop : folder.dropLast = name := by rw [hname, List.dropLast_concat]
  intro g
  have hall : g ∈ foldersOf folder ↔ g ∈ above ∨ g = folder := by rw [h, List.mem_append, List.mem_singleton]
  rw [mem_foldersOf] at hall ⊢
  refine ⟨?_, ?_⟩
  · rintro ⟨hg, hslash⟩
    refine (hall.mp ⟨hg.trans (List.dropLast_prefix _), hslash⟩).resolve_right ?_
    rintro rfl
    have hlength := hg.length_le
    rw [hdrop, hname, List.length_append, List.length_singleton] at hlength
    omega
  · intro hg
    obtain ⟨hstarts, hslash⟩ := hall.mpr (Or.inl hg)
    refine ⟨?_, hslash⟩
    rw [hname] at hstarts
    rw [hdrop]
    rcases List.prefix_concat_iff.mp hstarts with heq | hin
    · exact absurd (heq.trans hname.symm) (hcross g hg folder List.mem_cons_self).2
    · exact hin

end Secretov
