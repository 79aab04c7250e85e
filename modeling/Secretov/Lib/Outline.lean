import Mathlib.Data.List.Basic
import Mathlib.Order.Nat

/-! Trees written as indented lines: a line is a tree of its own, or the head of
those on the deeper lines below it. -/

/-- The depth of a line, the trees that are one line, and those that a line is the head of. -/
structure Outline (L T : Type) where
  depth : L → Nat
  leaf : L → T → Prop
  head : L → List T → T → Prop

namespace Outline

variable {L T : Type}

/-- Lines that are trees side by side. The lines below a head are of one depth. -/
inductive Reads (o : Outline L T) : Nat → List L → List T → Prop
  | nil {indent : Nat} : o.Reads indent [] []
  | leaf {indent : Nat} {line : L} {t : T} {lines : List L} {ts : List T} : o.depth line = indent →
    o.leaf line t → o.Reads indent lines ts → o.Reads indent (line :: lines) (t :: ts)
  | block {indent deep : Nat} {line : L} {t : T} {body rest : List L} {children ts : List T} :
    o.depth line = indent → o.head line children t → indent < deep → o.Reads deep body children →
    o.Reads indent rest ts → o.Reads indent (line :: (body ++ rest)) (t :: ts)

/-- Of the lines that follow a body: none is deeper than the head before anything else is read. -/
def Back (o : Outline L T) (indent : Nat) (lines : List L) : Prop := ∀ line ∈ lines.head?, o.depth line ≤ indent

variable {o : Outline L T} {indent : Nat} {lines before body rest : List L} {line : L} {ts : List T}

theorem Reads.le_depth (h : o.Reads indent lines ts) : ∀ line ∈ lines, indent ≤ o.depth line := by
  induction h with
  | nil => exact nofun
  | leaf hdepth _ _ ih => exact List.forall_mem_cons.mpr ⟨hdepth.ge, ih⟩
  | block hdepth _ hlt _ _ ihbody ihrest =>
    refine List.forall_mem_cons.mpr ⟨hdepth.ge, List.forall_mem_append.mpr ⟨fun line hline => ?_, ihrest⟩⟩
    exact hlt.le.trans (ihbody line hline)

theorem Reads.depth_head (h : o.Reads indent lines ts) : ∀ line ∈ lines.head?, o.depth line = indent := by
  cases h with
  | nil => exact nofun
  | leaf hdepth => simpa using hdepth
  | block hdepth => simpa using hdepth

theorem Reads.back (h : o.Reads indent lines ts) : o.Back indent lines :=
  fun line hline => (h.depth_head line hline).le

theorem Reads.append {lines' : List L} {ts' : List T} (h : o.Reads indent lines ts)
    (h' : o.Reads indent lines' ts') : o.Reads indent (lines ++ lines') (ts ++ ts') := by
  induction h with
  | nil => exact h'
  | leaf hdepth hleaf _ ih => exact .leaf hdepth hleaf (ih h')
  | block hdepth hhead hlt hbody _ _ ih =>
    rw [List.cons_append, List.append_assoc]
    exact .block hdepth hhead hlt hbody (ih h')

theorem Reads.eq_nil (h : o.Reads indent [] ts) : ts = [] := by
  cases h
  rfl

/-- Where there is nothing to read, any depth will do. -/
theorem Reads.at_head (h : o.Reads indent lines ts) (least : Nat) :
    o.Reads ((lines.head?.map o.depth).getD least) lines ts := by
  cases h with
  | nil => exact .nil
  | leaf hdepth hleaf hrest =>
    subst hdepth
    exact .leaf rfl hleaf hrest
  | block hdepth hhead hlt hbody hrest =>
    subst hdepth
    exact .block rfl hhead hlt hbody hrest

/-- A body ends at the first line that is not deeper. -/
theorem cut_unique {body' rest' : List L} (hbody : ∀ line ∈ body, indent < o.depth line)
    (hbody' : ∀ line ∈ body', indent < o.depth line) (hrest : o.Back indent rest) (hrest' : o.Back indent rest')
    (h : body ++ rest = body' ++ rest') : body = body' ∧ rest = rest' := by
  induction body generalizing body' with
  | nil =>
    cases body' with
    | nil => exact ⟨rfl, h⟩
    | cons line body' =>
      have hdeep := hbody' line List.mem_cons_self
      have hle := hrest line (by rw [show rest = line :: (body' ++ rest') from h]; rfl)
      omega
  | cons line body ih =>
    cases body' with
    | nil =>
      have hdeep := hbody line List.mem_cons_self
      have hle := hrest' line (by rw [← show line :: (body ++ rest) = rest' from h]; rfl)
      omega
    | cons line' body' =>
      obtain ⟨rfl, hmore⟩ := List.cons.inj h
      obtain ⟨rfl, rfl⟩ := ih (List.forall_mem_cons.mp hbody).2 (List.forall_mem_cons.mp hbody').2 hmore
      exact ⟨rfl, rfl⟩

/-- The depth is that of the first line. -/
theorem Reads.of_depth {indent' : Nat} {ts' : List T} (h : o.Reads indent lines ts)
    (h' : o.Reads indent' lines ts') : o.Reads indent lines ts' := by
  cases hlines : lines.head? with
  | none =>
    obtain rfl := List.head?_eq_none_iff.mp hlines
    obtain rfl := h'.eq_nil
    exact .nil
  | some line =>
    obtain rfl : indent = indent' := (h.depth_head line hlines).symm.trans (h'.depth_head line hlines)
    exact h'

/-- What a line is, with the deeper lines below it. -/
theorem Reads.cons_cases (h : o.Reads indent (line :: (body ++ rest)) ts)
    (hbody : ∀ line ∈ body, indent < o.depth line)
    (hrest : o.Back indent rest) : ∃ t ts', ts = t :: ts' ∧ o.depth line = indent ∧ o.Reads indent rest ts' ∧
      (o.leaf line t ∧ body = [] ∨ ∃ deep children, indent < deep ∧ o.head line children t ∧
        o.Reads deep body children) := by
  generalize hlines : line :: (body ++ rest) = lines at h
  cases h with
  | nil => cases hlines
  | leaf hdepth hleaf hmore =>
    obtain ⟨rfl, rfl⟩ := List.cons.inj hlines
    obtain ⟨rfl, -⟩ := cut_unique hbody (List.forall_mem_nil _) hrest hmore.back rfl
    exact ⟨_, _, rfl, hdepth, hmore, .inl ⟨hleaf, rfl⟩⟩
  | block hdepth hhead hlt hinner hmore =>
    obtain ⟨rfl, hsame⟩ := List.cons.inj hlines
    obtain ⟨rfl, rfl⟩ := cut_unique hbody (fun line hline => hlt.trans_le (hinner.le_depth line hline)) hrest
      hmore.back hsame
    exact ⟨_, _, rfl, hdepth, hmore, .inr ⟨_, _, hlt, hhead, hinner⟩⟩

/-- Trees side by side can be cut at each line of their depth. -/
theorem Reads.split (h : o.Reads indent (before ++ line :: rest) ts) (hdepth : o.depth line = indent) :
    ∃ ts₁ ts₂, ts = ts₁ ++ ts₂ ∧ o.Reads indent before ts₁ ∧ o.Reads indent (line :: rest) ts₂ := by
  generalize hlines : before ++ line :: rest = lines at h
  induction h generalizing before with
  | nil => cases before <;> cases hlines
  | @leaf _ first t lines ts hfirst hleaf hmore ih =>
    cases before with
    | nil =>
      obtain ⟨rfl, rfl⟩ := List.cons.inj hlines
      exact ⟨[], t :: ts, rfl, .nil, .leaf hfirst hleaf hmore⟩
    | cons _ before =>
      obtain ⟨rfl, hrest⟩ := List.cons.inj hlines
      obtain ⟨ts₁, ts₂, rfl, h₁, h₂⟩ := ih hdepth hrest
      exact ⟨t :: ts₁, ts₂, rfl, .leaf hfirst hleaf h₁, h₂⟩
  | @block indent deep first t body more children ts hfirst hhead hlt hbody hmore _ ih =>
    cases before with
    | nil =>
      obtain ⟨rfl, rfl⟩ := List.cons.inj hlines
      exact ⟨[], t :: ts, rfl, .nil, .block hfirst hhead hlt hbody hmore⟩
    | cons _ before =>
      obtain ⟨rfl, hrest⟩ := List.cons.inj hlines
      -- the line is none of the body's, which are deeper
      rcases List.append_eq_append_iff.mp hrest with ⟨inner, hinner, hline⟩ | ⟨inner, rfl, hline⟩
      · cases inner with
        | nil =>
          have hline : [] ++ line :: rest = more := hline
          obtain ⟨ts₁, ts₂, rfl, h₁, h₂⟩ := ih hdepth hline
          obtain rfl := h₁.eq_nil
          rw [List.append_nil] at hinner
          subst hinner
          exact ⟨[t], ts₂, rfl, by simpa using Reads.block hfirst hhead hlt hbody .nil, h₂⟩
        | cons _ inner =>
          obtain ⟨rfl, -⟩ := List.cons.inj hline
          have hdeep := hbody.le_depth line (by simp [hinner])
          omega
      · obtain ⟨ts₁, ts₂, rfl, h₁, h₂⟩ := ih hdepth hline.symm
        exact ⟨t :: ts₁, ts₂, rfl, .block hfirst hhead hlt hbody h₁, h₂⟩

/-- A line of the depth is a tree's. -/
theorem Reads.mem (h : o.Reads indent lines ts) (hline : line ∈ lines) (hdepth : o.depth line = indent) :
    ∃ t ∈ ts, o.leaf line t ∨ ∃ children, o.head line children t := by
  obtain ⟨before, rest, rfl⟩ := List.append_of_mem hline
  obtain ⟨ts₁, ts₂, rfl, -, h⟩ := h.split hdepth
  cases h with
  | leaf _ hleaf _ => exact ⟨_, by simp, .inl hleaf⟩
  | block _ hhead _ _ _ => exact ⟨_, by simp, .inr ⟨_, hhead⟩⟩

theorem Reads.mono {o' : Outline L T} (hdepth : o.depth = o'.depth)
    (hleaf : ∀ line t, o.leaf line t → o'.leaf line t)
    (hhead : ∀ line children t, o.head line children t → o'.head line children t) (h : o.Reads indent lines ts) :
    o'.Reads indent lines ts := by
  induction h with
  | nil => exact .nil
  | leaf hline htree _ ih => exact .leaf (hdepth ▸ hline) (hleaf _ _ htree) ih
  | block hline htree hlt _ _ ihbody ihrest => exact .block (hdepth ▸ hline) (hhead _ _ _ htree) hlt ihbody ihrest

/-- Lines can be read in one way only, where each line can. -/
theorem Reads.unique (hleaf : ∀ line t t', o.leaf line t → o.leaf line t' → t = t')
    (hhead : ∀ line children t t', o.head line children t → o.head line children t' → t = t')
    (hapart : ∀ line children t t', o.leaf line t → ¬o.head line children t') {ts' : List T}
    (h : o.Reads indent lines ts) (h' : o.Reads indent lines ts') : ts = ts' := by
  induction h generalizing ts' with
  | nil => exact h'.eq_nil.symm
  | leaf _ htree hrest ih =>
    obtain ⟨t, more, rfl, -, hmore, ⟨hsame, -⟩ | ⟨deep, children, -, hother, -⟩⟩ :=
      Reads.cons_cases (show o.Reads _ (_ :: ([] ++ _)) _ from h') nofun hrest.back
    · rw [hleaf _ _ _ htree hsame, ih hmore]
    · exact absurd hother (hapart _ _ _ _ htree)
  | block _ htree hlt hbody hrest ihbody ihrest =>
    obtain ⟨t, more, rfl, -, hmore, ⟨hother, -⟩ | ⟨deep, children, -, hsame, hinner⟩⟩ :=
      h'.cons_cases (fun line hline => hlt.trans_le (hbody.le_depth line hline)) hrest.back
    · exact absurd htree (hapart _ _ _ _ hother)
    · obtain rfl := ihbody (hbody.of_depth hinner)
      rw [hhead _ _ _ _ htree hsame, ihrest hmore]

end Outline
