import Mathlib.Data.List.DropRight
import Secretov.Bytes
import Secretov.Lib.LinkTree

/-! Paths of files, as `std::filesystem::path` and the system take them: the steps, the
parent path, and a path of names from the root written out. -/

namespace Secretov

open LinkTree

structure FileName where
  bytes : Bytes
  plain : bytes ≠ [] ∧ slash ∉ bytes ∧ bytes ≠ text "." ∧ bytes ≠ text ".."
deriving DecidableEq

def pathStep (piece : Bytes) : Option (Step FileName) :=
  if piece = text "." then some .here
  else if piece = text ".." then some .up
  else if h : piece ≠ [] ∧ slash ∉ piece ∧ piece ≠ text "." ∧ piece ≠ text ".." then some (.name ⟨piece, h⟩)
  else none

def pathSteps (s : Bytes) : List (Step FileName) := (s.splitOn slash).filterMap pathStep

/-- A slash at the end asks for a directory, as a "." there does. -/
def parsePath (s : Bytes) : Pathname FileName where
  absolute := s.head? == some slash
  steps := pathSteps s ++ if s.getLast? = some slash ∧ pathSteps s ≠ [] then [.here] else []

/-- `parent_path()` -/
def parentPath (s : Bytes) : Bytes :=
  if s.all (· = slash) then s
  else
    let parent := (s.rdropWhile (· ≠ slash)).rdropWhile (· = slash)
    if parent = [] ∧ s.head? = some slash then [slash] else parent

def rootedPath (names : List FileName) : Bytes :=
  if names = [] then [slash] else names.flatMap fun name => slash :: name.bytes

theorem pathSteps_append (s rest : Bytes) : pathSteps (s ++ slash :: rest) = pathSteps s ++ pathSteps rest := by
  rw [pathSteps, List.splitOn_append_cons_self, List.filterMap_append]
  rfl

theorem pathSteps_name (x : FileName) : pathSteps x.bytes = [.name x] := by
  obtain ⟨hne, hslash, hdot, hdots⟩ := x.plain
  have hstep : pathStep x.bytes = some (.name x) := by
    rw [pathStep, if_neg hdot, if_neg hdots, dif_pos x.plain]
  rw [pathSteps, List.splitOn_eq_singleton hslash]
  simp [hstep]

theorem pathSteps_rdropWhile (s : Bytes) : pathSteps (s.rdropWhile (· = slash)) = pathSteps s := by
  induction s using List.reverseRecOn with
  | nil => rfl
  | append_singleton s c ih =>
    rw [List.rdropWhile_concat]
    by_cases hc : c = slash
    · have hempty : pathSteps [] = [] := rfl
      rw [if_pos (by simpa using hc), ih, hc, pathSteps_append, hempty, List.append_nil]
    · rw [if_neg (by simpa using hc)]

theorem pathStep_eq_name {piece : Bytes} {x : FileName} (h : pathStep piece = some (.name x)) :
    piece = x.bytes := by
  unfold pathStep at h
  split_ifs at h with _ _ hplain
  · simp at h
  · simp at h
  · simp only [Option.some.injEq, Step.name.injEq] at h
    rw [← h]

theorem pathStep_eq_none {piece : Bytes} (hslash : slash ∉ piece) (h : pathStep piece = none) : piece = [] := by
  unfold pathStep at h
  split_ifs at h with hdot hdots hplain
  by_contra hne
  exact hplain ⟨hne, hslash, hdot, hdots⟩

/-- What is left without the last piece is empty or ends in a slash. -/
theorem rdropWhile_slash (s : Bytes) :
    s.rdropWhile (· ≠ slash) = [] ∨ ∃ r, s.rdropWhile (· ≠ slash) = r ++ [slash] := by
  induction s using List.reverseRecOn with
  | nil => exact Or.inl rfl
  | append_singleton s c ih =>
    rw [List.rdropWhile_concat]
    by_cases hc : c = slash
    · rw [if_neg (by simpa using hc), hc]
      exact Or.inr ⟨s, rfl⟩
    · rw [if_pos (by simpa using hc)]
      exact ih

theorem pathSteps_last (s : Bytes) : pathSteps s =
    pathSteps (s.rdropWhile (· ≠ slash)) ++ (pathStep (s.rtakeWhile (· ≠ slash))).toList := by
  have hsplit : s.rdropWhile (· ≠ slash) ++ s.rtakeWhile (· ≠ slash) = s := List.rdropWhile_append_rtakeWhile
  have hslash : slash ∉ s.rtakeWhile (· ≠ slash) := fun hmem => by simpa using List.mem_rtakeWhile_imp hmem
  have hlast : pathSteps (s.rtakeWhile (· ≠ slash)) = (pathStep (s.rtakeWhile (· ≠ slash))).toList := by
    rw [pathSteps, List.splitOn_eq_singleton hslash]
    rw [List.filterMap_cons]
    cases pathStep (s.rtakeWhile (· ≠ slash)) <;> rfl
  have hempty : pathSteps [] = [] := rfl
  rw [← hlast]
  conv_lhs => rw [← hsplit]
  rcases rdropWhile_slash s with hnil | ⟨r, hr⟩
  · rw [hnil, hempty]
    rfl
  · rw [hr, pathSteps_append, hempty, List.append_nil, List.append_assoc, List.singleton_append, pathSteps_append]

/-- A path that ends in a name is the name after the rest. -/
theorem steps_eq_name {s : Bytes} {init : List (Step FileName)} {x : FileName}
    (h : (parsePath s).steps = init ++ [.name x]) :
    s = s.rdropWhile (· ≠ slash) ++ x.bytes ∧ pathSteps (s.rdropWhile (· ≠ slash)) = init := by
  have hsplit : s.rdropWhile (· ≠ slash) ++ s.rtakeWhile (· ≠ slash) = s := List.rdropWhile_append_rtakeWhile
  have hslash : slash ∉ s.rtakeWhile (· ≠ slash) := fun hmem => by simpa using List.mem_rtakeWhile_imp hmem
  have hparts : pathSteps s = init ++ [.name x] ∧ ¬ (s.getLast? = some slash ∧ pathSteps s ≠ []) := by
    simp only [parsePath] at h
    split_ifs at h with hend
    · have hlast := (List.append_inj' h rfl).2
      simp at hlast
    · exact ⟨by rwa [List.append_nil] at h, hend⟩
  obtain ⟨hsteps, hend⟩ := hparts
  have hsome : pathSteps s ≠ [] := by
    rw [hsteps]
    exact List.concat_ne_nil _ _
  rw [pathSteps_last] at hsteps
  cases hstep : pathStep (s.rtakeWhile (· ≠ slash)) with
  | none =>
    -- a path that ends in a slash asks for a directory
    rw [pathStep_eq_none hslash hstep, List.append_nil] at hsplit
    rcases rdropWhile_slash s with hnil | ⟨r, hr⟩
    · rw [hsplit] at hnil
      rw [hnil] at hsome
      exact absurd rfl hsome
    · rw [hsplit] at hr
      exact absurd ⟨by rw [hr, List.getLast?_concat], hsome⟩ hend
  | some step =>
    rw [hstep] at hsteps
    obtain ⟨hinit, hname⟩ := List.append_inj' hsteps rfl
    simp only [Option.toList_some, List.cons.injEq, and_true] at hname
    rw [hname] at hstep
    exact ⟨by rw [← pathStep_eq_name hstep, hsplit], hinit⟩

/-- What a file's directory is called. -/
theorem parsePath_parentPath {s : Bytes} {init : List (Step FileName)} {x : FileName}
    (h : (parsePath s).steps = init ++ [.name x]) :
    parsePath (parentPath s) = ⟨(parsePath s).absolute, init⟩ := by
  obtain ⟨hs, hinit⟩ := steps_eq_name h
  have hparent : pathSteps ((s.rdropWhile (· ≠ slash)).rdropWhile (· = slash)) = init := by
    rw [pathSteps_rdropWhile, hinit]
  have hprefix : (s.rdropWhile (· ≠ slash)).rdropWhile (· = slash) <+: s :=
    (List.rdropWhile_prefix _ _).trans (List.rdropWhile_prefix _ _)
  have hend : ((s.rdropWhile (· ≠ slash)).rdropWhile (· = slash)).getLast? ≠ some slash := by
    intro hlast
    have hne : (s.rdropWhile (· ≠ slash)).rdropWhile (· = slash) ≠ [] := by
      intro hnil
      rw [hnil] at hlast
      cases hlast
    rw [List.getLast?_eq_some_getLast hne] at hlast
    exact List.rdropWhile_last_not _ _ hne (by simpa using hlast)
  have hall : s.all (· = slash) ≠ true := by
    intro hall
    obtain ⟨hne, hslash, -, -⟩ := x.plain
    obtain ⟨c, hc⟩ := List.exists_mem_of_ne_nil _ hne
    have hmem : c ∈ s := by
      rw [hs]
      exact List.mem_append_right _ hc
    have hcs : c = slash := by simpa using List.all_eq_true.mp hall c hmem
    exact hslash (hcs ▸ hc)
  rw [parentPath, if_neg hall]
  generalize (s.rdropWhile (· ≠ slash)).rdropWhile (· = slash) = parent at *
  by_cases hroot : parent = [] ∧ s.head? = some slash
  · obtain ⟨hnil, hhead⟩ := hroot
    have hempty : init = [] := by
      rw [← hparent, hnil]
      rfl
    rw [if_pos ⟨hnil, hhead⟩, hempty]
    simp only [parsePath, hhead]
    rfl
  · rw [if_neg hroot]
    have hsteps : (parsePath parent).steps = init := by
      simp only [parsePath]
      rw [if_neg fun hboth => hend hboth.1, List.append_nil, hparent]
    have habsolute : (parsePath parent).absolute = (parsePath s).absolute := by
      simp only [parsePath]
      cases parent with
      | nil =>
        have hhead : s.head? ≠ some slash := fun hhead => hroot ⟨rfl, hhead⟩
        simp [hhead]
      | cons c parent =>
        obtain ⟨rest, rfl⟩ := hprefix
        rfl
    rw [← hsteps, ← habsolute]

theorem pathSteps_flatMap (names : List FileName) :
    pathSteps (names.flatMap fun name => slash :: name.bytes) = names.map .name := by
  induction names using List.reverseRecOn with
  | nil => rfl
  | append_singleton names x ih =>
    rw [List.flatMap_append, List.map_append, List.flatMap_singleton, pathSteps_append, ih, pathSteps_name]
    rfl

theorem parsePath_rootedPath (names : List FileName) :
    parsePath (rootedPath names) = ⟨true, names.map .name⟩ := by
  rw [rootedPath]
  rcases List.eq_nil_or_concat' names with rfl | ⟨init, x, rfl⟩
  · rfl
  · rw [if_neg (List.concat_ne_nil x init)]
    have hsteps := pathSteps_flatMap (init ++ [x])
    have hhead : ((init ++ [x]).flatMap fun name => slash :: name.bytes).head? = some slash := by
      cases init <;> rfl
    have hend : ((init ++ [x]).flatMap fun name => slash :: name.bytes).getLast? ≠ some slash := by
      obtain ⟨hne, hslash, -, -⟩ := x.plain
      rw [List.flatMap_append, List.flatMap_singleton, List.getLast?_append_of_ne_nil _ (List.cons_ne_nil _ _),
        List.getLast?_cons_of_ne_nil hne]
      exact fun hlast => hslash (List.mem_of_getLast? hlast)
    simp only [parsePath]
    rw [hsteps, hhead, if_neg fun hboth => hend hboth.1, List.append_nil]
    rfl

end Secretov
