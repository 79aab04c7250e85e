import Secretov.Bytes
import Mathlib.Data.List.DropRight

/-! Lines of text, as `getline` splits them (manifest.cpp). -/

namespace Secretov

def tab : UInt8 := 9

def carriageReturn : UInt8 := 13

def blank : UInt8 := 32

def hash : UInt8 := 35

def isBlank (c : UInt8) : Bool := c == blank || c == tab

/-- A last line need not end in a newline. -/
def splitLines : Bytes → List Bytes
  | [] => []
  | c :: s =>
    if c = newline then [] :: splitLines s
    else match splitLines s with
      | [] => [[c]]
      | line :: lines => (c :: line) :: lines

def blankOrComment : Bytes → Bool
  | [] => true
  | c :: line =>
    if c = hash then true
    else if c ≠ blank ∧ c ≠ tab ∧ c ≠ carriageReturn then false
    else blankOrComment line

theorem splitLines_cons_newline (s : Bytes) : splitLines (newline :: s) = [] :: splitLines s := by
  simp [splitLines]

theorem splitLines_line {line : Bytes} (h : newline ∉ line) (s : Bytes) :
    splitLines (line ++ newline :: s) = line :: splitLines s := by
  induction line with
  | nil => exact splitLines_cons_newline s
  | cons c line ih =>
    rw [List.mem_cons, not_or] at h
    obtain ⟨hc, hline⟩ := h
    rw [List.cons_append, splitLines, if_neg (Ne.symm hc), ih hline]

theorem splitLines_ne_nil {s : Bytes} (h : s ≠ []) : splitLines s ≠ [] := by
  cases s with
  | nil => exact absurd rfl h
  | cons c s =>
    unfold splitLines
    split
    · exact nofun
    · split <;> exact nofun

theorem splitOn_cons (c : UInt8) (s : Bytes) :
    (c :: s).splitOn newline = if c = newline then [] :: s.splitOn newline else
      (s.splitOn newline).modifyHead (c :: ·) := by
  rw [List.splitOn, List.splitOnP_cons_eq_if_modifyHead, List.splitOn]
  simp only [beq_iff_eq]

/-- Splitting at every newline gives one more line, an empty one, after a newline at the end. -/
theorem splitOn_newline (s : Bytes) :
    s.splitOn newline = splitLines s ∧ s ≠ [] ∨ s.splitOn newline = splitLines s ++ [[]] := by
  induction s with
  | nil => exact Or.inr rfl
  | cons c s ih =>
    rw [splitOn_cons]
    by_cases hc : c = newline
    · rw [if_pos hc, splitLines, if_pos hc]
      rcases ih with ⟨hsame, -⟩ | hmore
      · exact Or.inl ⟨by rw [hsame], nofun⟩
      · exact Or.inr (by rw [hmore]; rfl)
    · rw [if_neg hc, splitLines, if_neg hc]
      rcases hs : splitLines s with _ | ⟨line, lines⟩
      · rcases ih with ⟨hsame, hne⟩ | hmore
        · exact absurd hs (splitLines_ne_nil hne)
        · exact Or.inl ⟨by rw [hmore, hs]; rfl, nofun⟩
      · rcases ih with ⟨hsame, -⟩ | hmore
        · exact Or.inl ⟨by rw [hsame, hs]; rfl, nofun⟩
        · exact Or.inr (by rw [hmore, hs]; rfl)

/-- Nothing but blanks and carriage returns up to the end or a comment. -/
def Trailing (line : Bytes) : Prop :=
  ∃ pad rest, line = pad ++ rest ∧ (∀ c ∈ pad, isBlank c = true ∨ c = carriageReturn) ∧
    (rest = [] ∨ ∃ comment, rest = hash :: comment)

theorem blankOrComment_iff {line : Bytes} : blankOrComment line = true ↔ Trailing line := by
  induction line with
  | nil => exact ⟨fun _ => ⟨[], [], rfl, nofun, Or.inl rfl⟩, fun _ => rfl⟩
  | cons c line ih =>
    unfold blankOrComment
    by_cases hc : c = hash
    · rw [if_pos hc]
      exact ⟨fun _ => ⟨[], c :: line, rfl, nofun, Or.inr ⟨line, by rw [hc]⟩⟩, fun _ => rfl⟩
    · rw [if_neg hc]
      split
      · rename_i hpad
        refine ⟨nofun, ?_⟩
        rintro ⟨_ | ⟨d, pad⟩, rest, heq, hall, hend⟩
        · rcases hend with rfl | ⟨comment, rfl⟩
          · cases heq
          · exact absurd (List.cons.inj heq).1 hc
        · obtain ⟨rfl, -⟩ := List.cons.inj heq
          have hd := hall c List.mem_cons_self
          simp [isBlank, hpad] at hd
      · rename_i hpad
        rw [ih]
        constructor
        · rintro ⟨pad, rest, rfl, hall, hend⟩
          refine ⟨c :: pad, rest, rfl, List.forall_mem_cons.mpr ⟨?_, hall⟩, hend⟩
          simp only [isBlank, Bool.or_eq_true, beq_iff_eq]
          tauto
        · rintro ⟨_ | ⟨d, pad⟩, rest, heq, hall, hend⟩
          · rcases hend with rfl | ⟨comment, rfl⟩
            · cases heq
            · exact absurd (List.cons.inj heq).1 hc
          · obtain ⟨rfl, rfl⟩ := List.cons.inj heq
            exact ⟨pad, rest, rfl, (List.forall_mem_cons.mp hall).2, hend⟩

end Secretov
