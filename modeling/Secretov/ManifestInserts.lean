import Secretov.ManifestTrust
import Secretov.Sections
import Secretov.Lib.Framing

/-! The edit of a manifest only puts lines in, and repeating it changes nothing: the
blocks and the entries that it has put in are found again. -/

namespace Secretov

open Insertion

/-- Nothing, or the key's line. -/
def AtMostKey (key : Bytes) (added : List Bytes) : Prop :=
  added = [] ∨ ∃ indent, added = [spaces indent ++ key ++ [colon]]

/-- The lines that an edit starts from. -/
def startLines (contents project : Bytes) : List Bytes :=
  if contents = [] then freshLines project else splitLines contents

/-- The new text is the old one with a line for each missing block and two for each
missing pair put in. -/
def OnlyInserts (contents project env : Bytes) (nameToVar : KeyValues) (out : Bytes) : Prop :=
  ∃ (envLine nameLine secretsLine : List Bytes) (nameIndent valueIndent : Nat) (added : KeyValues),
    (envLine = [] ∨ envLine = [text "env:"]) ∧ AtMostKey env nameLine ∧ AtMostKey (text "secrets") secretsLine ∧
    added.Sublist nameToVar ∧
    (∀ pair ∈ nameToVar, pair ∈ added ∨ ∃ line ∈ startLines contents project,
    keyAt nameIndent pair.1 line = true) ∧ Inserted (envLine ++ (nameLine ++ (secretsLine ++
        added.flatMap fun pair => entryLines nameIndent valueIndent pair.1 pair.2)))
      (startLines contents project) (splitLines out)

/-! The three blocks. -/

def ensureBlocks (lines : List Bytes) (step : Nat) (env : Bytes) : Except Thrown (List Bytes × Block) := do
  let (lines, envRoot) ← ensureBlock lines 0 lines.length 0 step (text "env")
  let (lines, envBlock) ← ensureBlock lines (envRoot.keyLine + 1) envRoot.last envRoot.entryIndent step env
  ensureBlock lines (envBlock.keyLine + 1) envBlock.last envBlock.entryIndent step (text "secrets")

theorem ensureBlocks_eq_ok {lines : List Bytes} {step : Nat} {env : Bytes} {edited : List Bytes × Block} :
    ensureBlocks lines step env = .ok edited ↔ ∃ lines₁ root lines₂ envs,
      ensureBlock lines 0 lines.length 0 step (text "env") = .ok (lines₁, root) ∧
      ensureBlock lines₁ (root.keyLine + 1) root.last root.entryIndent step env = .ok (lines₂, envs) ∧
      ensureBlock lines₂ (envs.keyLine + 1) envs.last envs.entryIndent step (text "secrets") = .ok edited := by
  rw [ensureBlocks, Prog.except_bind_eq_ok]
  constructor
  · rintro ⟨⟨lines₁, root⟩, hroot, h⟩
    obtain ⟨⟨lines₂, envs⟩, henvs, h⟩ := Prog.except_bind_eq_ok.mp h
    exact ⟨lines₁, root, lines₂, envs, hroot, henvs, h⟩
  · rintro ⟨lines₁, root, lines₂, envs, hroot, henvs, h⟩
    exact ⟨(lines₁, root), hroot, Prog.except_bind_eq_ok.mpr ⟨(lines₂, envs), henvs, h⟩⟩

/-- Blocks, each in the body of the one before it. -/
structure Nest where
  root : Section
  envs : Section
  secrets : Section
  envIndent : Nat
  secretsIndent : Nat

namespace Section

/-- The lines before the block's body. -/
def above (s : Section) (pre : List Bytes) : List Bytes := pre ++ (s.before ++ [s.keyLine])

theorem lines_parts (s : Section) (pre post : List Bytes) :
    pre ++ s.lines ++ post = s.above pre ++ s.body ++ (s.after ++ post) := by
  simp [lines, above]

theorem block_first (s : Section) (pre : List Bytes) (indent step : Nat) :
    (s.block pre.length indent step).keyLine + 1 = (s.above pre).length := by
  simp only [block, above, List.length_append, List.length_singleton]
  omega

theorem block_last (s : Section) (pre : List Bytes) (indent step : Nat) :
    (s.block pre.length indent step).last = (s.above pre).length + s.body.length := by
  simp only [block, above, List.length_append, List.length_singleton]
  omega

/-- The search for a block in the body of another. -/
theorem ensureBlock_body (s : Section) (pre lines : List Bytes) (indent step : Nat) (key : Bytes) :
    ensureBlock lines ((s.block pre.length indent step).keyLine + 1) (s.block pre.length indent step).last
        (s.block pre.length indent step).entryIndent step key =
      ensureBlock lines (s.above pre).length ((s.above pre).length + s.body.length)
        ((firstIndent s.body).getD (indent + step)) step key := by
  rw [block_first, block_last]
  rfl

end Section

namespace Nest

/-- All lines, with the innermost body. -/
def lines (n : Nest) (body : List Bytes) : List Bytes :=
  (n.root.withBody (n.envs.withBody (n.secrets.withBody body).lines).lines).lines

def above (n : Nest) : List Bytes := n.secrets.above (n.envs.above (n.root.above []))

def below (n : Nest) : List Bytes := n.secrets.after ++ (n.envs.after ++ (n.root.after ++ []))

def block (n : Nest) (body : List Bytes) (step : Nat) : Block :=
  (n.secrets.withBody body).block (n.envs.above (n.root.above [])).length n.secretsIndent step

theorem lines_parts (n : Nest) (body : List Bytes) : n.lines body = n.above ++ body ++ n.below := by
  simp [lines, above, below, Section.lines, Section.above, Section.withBody]

theorem block_first (n : Nest) (body : List Bytes) (step : Nat) :
    (n.block body step).keyLine + 1 = n.above.length :=
  Section.block_first _ _ _ _

theorem block_last (n : Nest) (body : List Bytes) (step : Nat) :
    (n.block body step).last = n.above.length + body.length :=
  Section.block_last _ _ _ _

theorem lines_ne_nil (n : Nest) (body : List Bytes) : n.lines body ≠ [] := by
  simp [lines, Section.lines]

/-- Each block is found in the body of the one before it, whatever the innermost body. -/
structure Holds (n : Nest) (env : Bytes) : Prop where
  root : n.root.Holds 0 (text "env") []
  envs : n.envs.Holds n.envIndent env (n.root.after ++ [])
  secrets : n.secrets.Holds n.secretsIndent (text "secrets") (n.envs.after ++ (n.root.after ++ []))
  envFirst : ∀ body, firstIndent (n.envs.withBody body).lines = some n.envIndent
  secretsFirst : ∀ body, firstIndent (n.secrets.withBody body).lines = some n.secretsIndent
  envDeeper : ∀ body, Deeper n.envIndent body → Deeper 0 (n.envs.withBody body).lines
  secretsDeeper : ∀ body, Deeper n.secretsIndent body → Deeper n.envIndent (n.secrets.withBody body).lines

/-- The blocks are found where they are. -/
theorem Holds.ensureBlocks {n : Nest} {env : Bytes} (h : n.Holds env) {body : List Bytes}
    (hbody : Deeper n.secretsIndent body) (step : Nat) :
    ensureBlocks (n.lines body) step env = .ok (n.lines body, n.block body step) := by
  have hsecrets := h.secretsDeeper body hbody
  have hlines₁ : n.lines body = n.root.above [] ++ (n.envs.withBody (n.secrets.withBody body).lines).lines ++
      (n.root.after ++ []) := by
    simp [lines, Section.lines, Section.above, Section.withBody]
  have hlines₂ : n.lines body = n.envs.above (n.root.above []) ++ (n.secrets.withBody body).lines ++
      (n.envs.after ++ (n.root.after ++ [])) := by
    simp [lines, Section.lines, Section.above, Section.withBody]
  let root := n.root.withBody (n.envs.withBody (n.secrets.withBody body).lines).lines
  let envs := n.envs.withBody (n.secrets.withBody body).lines
  have hroot : ensureBlock (n.lines body) 0 (n.lines body).length 0 step (text "env") =
      .ok (n.lines body, root.block ([] : List Bytes).length 0 step) := by
    have hfound := (h.root.withBody (h.envDeeper _ hsecrets)).ensureBlock [] step
    rw [List.nil_append, List.append_nil, List.length_nil, Nat.zero_add] at hfound
    exact hfound
  have henvs := (h.envs.withBody hsecrets).ensureBlock (n.root.above []) step
  rw [← hlines₁] at henvs
  have henvs' := root.ensureBlock_body [] (n.lines body) 0 step env
  rw [show firstIndent root.body = some n.envIndent from h.envFirst _] at henvs'
  have hlast := (h.secrets.withBody hbody).ensureBlock (n.envs.above (n.root.above [])) step
  rw [← hlines₂] at hlast
  have hlast' := envs.ensureBlock_body (n.root.above []) (n.lines body) n.envIndent step (text "secrets")
  rw [show firstIndent envs.body = some n.secretsIndent from h.secretsFirst body] at hlast'
  exact ensureBlocks_eq_ok.mpr ⟨_, _, _, _, hroot, henvs'.trans henvs, hlast'.trans hlast⟩

end Nest

theorem starts_of_text {s : String} (h : (text s).head?.any (fun c => isAlnum c || c == underscore) = true) :
    Starts (text s) := by
  cases hs : text s with
  | nil => simp [hs] at h
  | cons c rest =>
    rw [hs] at h
    exact ⟨c, rest, rfl, by simpa using h⟩

theorem entryIndent_gt {indent step : Nat} {body : List Bytes} (h : Deeper indent body) (hstep : 0 < step) :
    indent < (firstIndent body).getD (indent + step) := by
  cases hfirst : firstIndent body with
  | none =>
    rw [Option.getD_none]
    omega
  | some n => exact h.firstIndent hfirst

/-- The blocks are found or put in, and are then where the nest says. -/
theorem ensureBlocks_nest {lines edited : List Bytes}
    {step : Nat} {env : Bytes} {secrets : Block} (henv : Visible env)
    (hstep : 0 < step) (h : ensureBlocks lines step env = .ok (edited, secrets)) :
    ∃ (n : Nest) (rootLine nameLine secretsLine : List Bytes), n.Holds env ∧ edited = n.lines n.secrets.body ∧
      secrets = n.block n.secrets.body step ∧ n.envIndent = (firstIndent n.root.body).getD (0 + step) ∧
      n.secretsIndent = (firstIndent n.envs.body).getD (n.envIndent + step) ∧
      n.root.Placed 0 (text "env") lines rootLine ∧ n.envs.Placed n.envIndent env n.root.body nameLine ∧
      n.secrets.Placed n.secretsIndent (text "secrets") n.envs.body secretsLine := by
  obtain ⟨lines₁, block₁, lines₂, block₂, h₁, h₂, h₃⟩ := ensureBlocks_eq_ok.mp h
  have hend : Closed 0 [] := nofun
  have h₁ : ensureBlock ([] ++ lines ++ []) ([] : List Bytes).length
      (([] : List Bytes).length + lines.length) 0 step (text "env") = .ok (lines₁, block₁) := by
    simpa using h₁
  obtain ⟨root, rootLine, hroot, rfl, rfl, hroot'⟩ :=
    ensureBlock_section (starts_of_text (by decide)).visible hend h₁
  rw [root.ensureBlock_body, root.lines_parts] at h₂
  have hlt₁ := entryIndent_gt hroot.deeper hstep
  obtain ⟨envs, nameLine, henvs, rfl, rfl, henvs'⟩ :=
    ensureBlock_section henv (hroot.closed.mono hlt₁.le) h₂
  rw [envs.ensureBlock_body, envs.lines_parts] at h₃
  have hlt₂ := entryIndent_gt henvs.deeper hstep
  obtain ⟨inner, secretsLine, hinner, rfl, rfl, hinner'⟩ :=
    ensureBlock_section (starts_of_text (by decide)).visible (henvs.closed.mono hlt₂.le) h₃
  let n : Nest := ⟨root, envs, inner, (firstIndent root.body).getD (0 + step),
    (firstIndent envs.body).getD ((firstIndent root.body).getD (0 + step) + step)⟩
  have hholds : n.Holds env := by
    refine ⟨hroot, henvs, hinner, ?_, ?_, ?_, ?_⟩
    · exact Section.firstIndent_withBody henvs'.extends henvs.keyed rfl
    · exact Section.firstIndent_withBody hinner'.extends hinner.keyed rfl
    · exact fun body => Section.deeper_withBody henvs'.extends hroot.deeper henvs.keyed hlt₁
    · exact fun body => Section.deeper_withBody hinner'.extends henvs.deeper hinner.keyed hlt₂
  refine ⟨n, rootLine, nameLine, secretsLine, hholds, ?_, rfl, rfl, rfl, hroot', henvs', hinner'⟩
  rw [n.lines_parts, inner.lines_parts]
  rfl

/-! The entries. -/

section

variable {lines body : List Bytes} {secrets : Block} {indent valueIndent : Nat} {nameToVar : KeyValues}

/-- A name is found exactly if its first line has no value. -/
theorem findChildFrom_found {i : Nat} {key : Bytes} : (∃ j, findChildFrom indent key i body = .ok (some j)) ↔
    ∃ line, body.find? (keyAt indent key) = some line ∧ bareAt indent key line = true := by
  constructor
  · rintro ⟨j, h⟩
    rcases findChildFrom_ok h with ⟨hnone, -⟩ | ⟨before, line, rest, rfl, hbefore, hline, hbare, -⟩
    · cases hnone
    · refine ⟨line, List.find?_eq_some_iff_append.mpr ⟨hline, before, rest, rfl, fun other hother => ?_⟩, hbare⟩
      rw [hbefore other hother]
      rfl
  · rintro ⟨line, hfind, hbare⟩
    obtain ⟨hline, before, rest, rfl, hbefore⟩ := List.find?_eq_some_iff_append.mp hfind
    refine ⟨_, findChildFrom_first (fun other hother => ?_) hline hbare⟩
    simpa using hbefore other hother

/-- A pair is added exactly if its name is not there. -/
theorem addedLines_ok {added : List Bytes} (h : addedLines lines secrets valueIndent nameToVar = .ok added) :
    added = (nameToVar.filter fun pair =>
        findChild lines (secrets.keyLine + 1) secrets.last secrets.entryIndent pair.1 = .ok none).flatMap
          (fun pair => entryLines secrets.entryIndent valueIndent pair.1 pair.2) ∧
      ∀ pair ∈ nameToVar, ∃ found,
        findChild lines (secrets.keyLine + 1) secrets.last secrets.entryIndent pair.1 = .ok found := by
  have hall : added = [] ++ (nameToVar.filter fun pair =>
        findChild lines (secrets.keyLine + 1) secrets.last secrets.entryIndent pair.1 = .ok none).flatMap
          (fun pair => entryLines secrets.entryIndent valueIndent pair.1 pair.2) ∧
      ∀ pair ∈ nameToVar, ∃ found,
        findChild lines (secrets.keyLine + 1) secrets.last secrets.entryIndent pair.1 = .ok found := by
    rw [addedLines] at h
    -- over every start of the lines that are added
    generalize ([] : List Bytes) = start at h ⊢
    induction nameToVar generalizing start with
    | nil => exact ⟨by rw [← Except.ok.inj h]; simp, nofun⟩
    | cons pair nameToVar ih =>
      rw [List.foldlM_cons] at h
      obtain ⟨next, hnext, h⟩ := Prog.except_bind_eq_ok.mp h
      obtain ⟨found, hfound, hnext⟩ := Prog.except_bind_eq_ok.mp hnext
      obtain ⟨hadded, hrest⟩ := ih next h
      refine ⟨?_, List.forall_mem_cons.mpr ⟨⟨found, hfound⟩, hrest⟩⟩
      cases found with
      | some j =>
        obtain rfl := Except.ok.inj hnext
        rw [hadded, List.filter_cons_of_neg (by simp [hfound])]
      | none =>
        obtain rfl := Except.ok.inj hnext
        rw [hadded, List.filter_cons_of_pos (by simp [hfound]), List.flatMap_cons, List.append_assoc]
  exact hall

theorem addedLines_nil (h : ∀ pair ∈ nameToVar,
    ∃ j, findChild lines (secrets.keyLine + 1) secrets.last secrets.entryIndent pair.1 = .ok (some j)) :
    addedLines lines secrets valueIndent nameToVar = .ok [] := by
  unfold addedLines
  induction nameToVar with
  | nil => rfl
  | cons pair nameToVar ih =>
    obtain ⟨⟨j, hj⟩, hrest⟩ := List.forall_mem_cons.mp h
    rw [List.foldlM_cons, hj]
    exact ih hrest

theorem keyAt_nameLine {name key : Bytes} (hname : Identifier name) (hkey : Identifier key)
    (h : keyAt indent key (spaces indent ++ name ++ [colon]) = true) : key = name := by
  simp only [keyAt, Bool.and_eq_true, List.append_assoc, drop_spaces, List.isPrefixOf_iff_prefix] at h
  obtain ⟨rest, hrest⟩ := h.2
  have hcolon {s : Bytes} (hs : Identifier s) : colon ∉ s := by
    intro hmem
    have hchar := identifier_chars hs colon hmem
    revert hchar
    decide
  rw [List.append_assoc, List.singleton_append] at hrest
  exact (Framing.cut_unique (hcolon hkey) (hcolon hname) hrest).1

theorem valueLine_indent (valueIndent : Nat) (var : Bytes) :
    indentOf (spaces valueIndent ++ text "env_var_name: " ++ var) = valueIndent := by
  have hline : spaces valueIndent ++ text "env_var_name: " ++ var =
      spaces valueIndent ++ 'e'.toUInt8 :: (text "nv_var_name: " ++ var) := by
    rw [List.append_assoc]
    rfl
  rw [hline]
  exact (content_spaces valueIndent (by decide) _).2

/-- The lines of the new entries: each name is found among them. -/
theorem find_entryLines {fresh : KeyValues} (hfresh : ∀ pair ∈ fresh, Identifier pair.1)
    (hvalue : indent < valueIndent) {pair : Bytes × Bytes} (hpair : pair ∈ fresh) :
    ∃ line, (fresh.flatMap fun pair => entryLines indent valueIndent pair.1 pair.2).find? (keyAt indent pair.1) =
      some line ∧
      bareAt indent pair.1 line = true := by
  have hmem : spaces indent ++ pair.1 ++ [colon] ∈
      fresh.flatMap fun pair => entryLines indent valueIndent pair.1 pair.2 :=
    List.mem_flatMap.mpr ⟨pair, hpair, List.mem_cons_self⟩
  have hown := keyAt_spaces (hfresh pair hpair).starts.visible indent
  obtain ⟨line, hline⟩ := Option.isSome_iff_exists.mp (List.find?_isSome.mpr ⟨_, hmem, hown.1⟩)
  refine ⟨line, hline, ?_⟩
  have hkeyed := List.find?_some hline
  obtain ⟨other, hother, hlines⟩ := List.mem_flatMap.mp (List.mem_of_find?_eq_some hline)
  rw [entryLines, List.mem_cons, List.mem_singleton] at hlines
  rcases hlines with rfl | rfl
  · obtain hsame := keyAt_nameLine (hfresh other hother) (hfresh pair hpair) hkeyed
    rw [← hsame]
    exact hown.2
  · have hsame := keyAt_indent hkeyed
    rw [valueLine_indent] at hsame
    omega

/-- Entries put in after the content of a body: the first indentation and the names. -/
structure Filled (indent valueIndent : Nat) (nameToVar fresh : KeyValues) (top tail : List Bytes) : Prop where
  idle : Idle tail
  deeper : indent < valueIndent
  names : ∀ pair ∈ nameToVar, Identifier pair.1
  sub : fresh.Sublist nameToVar
  resolved : ∀ pair ∈ nameToVar, (pair ∈ fresh ∧ ∀ line ∈ top ++ tail, keyAt indent pair.1 line = false) ∨
    ∃ line, (top ++ tail).find? (keyAt indent pair.1) = some line ∧ bareAt indent pair.1 line = true

theorem Idle.find?_eq_none {tail : List Bytes} (h : Idle tail) (indent : Nat) (key : Bytes) :
    tail.find? (keyAt indent key) = none := by
  rw [List.find?_eq_none]
  intro line hline hkey
  have hcontent := keyAt_content hkey
  rw [h line hline] at hcontent
  cases hcontent

variable {fresh : KeyValues} {top tail : List Bytes}

/-- All names are found again. -/
theorem Filled.found (h : Filled indent valueIndent nameToVar fresh top tail) {pair : Bytes × Bytes}
    (hpair : pair ∈ nameToVar) :
    ∃ line, (top ++ fresh.flatMap (fun pair => entryLines indent valueIndent pair.1 pair.2) ++ tail).find?
      (keyAt indent pair.1) = some line ∧ bareAt indent pair.1 line = true := by
  rw [List.append_assoc, List.find?_append, List.find?_append]
  rcases h.resolved pair hpair with ⟨hfresh, hnone⟩ | ⟨line, hline, hbare⟩
  · have htop : top.find? (keyAt indent pair.1) = none := by
      rw [List.find?_eq_none]
      intro line hline
      rw [hnone line (List.mem_append_left _ hline)]
      exact Bool.false_ne_true
    obtain ⟨line, hline, hbare⟩ := find_entryLines
        (fun other hother => h.names other (h.sub.subset hother)) h.deeper hfresh
    exact ⟨line, by rw [htop, hline]; rfl, hbare⟩
  · rw [List.find?_append, h.idle.find?_eq_none, Option.or_none] at hline
    exact ⟨line, by rw [hline]; rfl, hbare⟩

/-- The entries stay as deep as they are. -/
theorem Filled.firstIndent (h : Filled indent valueIndent nameToVar fresh top tail) (hne : nameToVar ≠ [])
    {least : Nat} (hindent : (firstIndent (top ++ tail)).getD least = indent) (other : Nat) :
    (firstIndent (top ++ fresh.flatMap (fun pair => entryLines indent valueIndent pair.1 pair.2) ++ tail)).getD
      other = indent := by
  rw [List.append_assoc]
  cases htop : Secretov.firstIndent top with
  | some m =>
    rw [firstIndent_append htop, Option.getD_some] at hindent
    rw [firstIndent_append htop, Option.getD_some, hindent]
  | none =>
    have hnone : ∀ line ∈ top ++ tail, isContent line = false := by
      intro line hline
      rcases List.mem_append.mp hline with hline | hline
      · rw [Secretov.firstIndent, Option.map_eq_none_iff, List.find?_eq_none] at htop
        simpa using htop line hline
      · exact h.idle line hline
    obtain ⟨first, rest, hfirst⟩ := List.exists_cons_of_ne_nil hne
    have hadded : first ∈ fresh := by
      rcases h.resolved first (hfirst ▸ List.mem_cons_self) with ⟨hfresh, -⟩ | ⟨line, hline, -⟩
      · exact hfresh
      · have hcontent := keyAt_content (List.find?_some hline)
        rw [hnone line (List.mem_of_find?_eq_some hline)] at hcontent
        cases hcontent
    obtain ⟨added, more, rfl⟩ := List.exists_cons_of_ne_nil (List.ne_nil_of_mem hadded)
    have hname := (keyAt_spaces (h.names added (h.sub.subset List.mem_cons_self)).starts.visible indent).1
    rw [firstIndent_idle htop, List.flatMap_cons, entryLines, List.cons_append, List.cons_append,
      Secretov.firstIndent,
      List.find?_cons_of_pos (keyAt_content hname), Option.map_some, Option.getD_some, keyAt_indent hname]

theorem Filled.deeper_body (h : Filled indent valueIndent nameToVar fresh top tail)
    {outer : Nat} (hlt : outer < indent) (hbody : Deeper outer (top ++ tail)) :
    Deeper outer (top ++ fresh.flatMap (fun pair => entryLines indent valueIndent pair.1 pair.2) ++ tail) := by
  intro line hline hcontent
  rw [List.append_assoc, List.mem_append, List.mem_append] at hline
  rcases hline with hline | hline | hline
  · exact hbody line (List.mem_append_left _ hline) hcontent
  · obtain ⟨pair, hpair, hline⟩ := List.mem_flatMap.mp hline
    rw [entryLines, List.mem_cons, List.mem_singleton] at hline
    rcases hline with rfl | rfl
    · rw [keyAt_indent (keyAt_spaces (h.names pair (h.sub.subset hpair)).starts.visible indent).1]
      exact hlt
    · rw [valueLine_indent]
      exact hlt.trans h.deeper
  · exact hbody line (List.mem_append_right _ hline) hcontent

end

/-- The lines after the last content of the innermost block, where the entries go. -/
theorem Nest.exists_point (n : Nest) (body : List Bytes) (step minIndent : Nat) :
    ∃ top tail, body = top ++ tail ∧ Idle tail ∧ ∀ added,
      insertLines (n.lines body)
        (insertPoint (n.lines body) ((n.block body step).keyLine + 1) (n.block body step).last minIndent) added =
          n.lines (top ++ added ++ tail) := by
  obtain ⟨top, tail, rfl, htail, hpoint⟩ := insertPoint_parts n.above body n.below minIndent
  refine ⟨top, tail, rfl, htail, fun added => ?_⟩
  have hput := insertLines_parts (n.above ++ top) added (tail ++ n.below)
  rw [List.length_append] at hput
  rw [n.block_first, n.block_last, n.lines_parts, hpoint, n.lines_parts]
  simpa using hput

/-! Text and lines. -/

theorem newline_not_mem_splitLines (s : Bytes) : ∀ line ∈ splitLines s, newline ∉ line := by
  induction s with
  | nil => simp [splitLines]
  | cons c s ih =>
    rw [splitLines]
    split_ifs with hc
    · exact List.forall_mem_cons.mpr ⟨List.not_mem_nil, ih⟩
    · cases hs : splitLines s with
      | nil => exact List.forall_mem_singleton.mpr (by simpa using Ne.symm hc)
      | cons line lines =>
        rw [hs] at ih
        obtain ⟨hline, hlines⟩ := List.forall_mem_cons.mp ih
        refine List.forall_mem_cons.mpr ⟨?_, hlines⟩
        rw [List.mem_cons, not_or]
        exact ⟨Ne.symm hc, hline⟩

theorem splitLines_joinLines {lines : List Bytes} (h : ∀ line ∈ lines, newline ∉ line) :
    splitLines (joinLines lines) = lines := by
  induction lines with
  | nil => rfl
  | cons line lines ih =>
    obtain ⟨hline, hlines⟩ := List.forall_mem_cons.mp h
    have hcons : joinLines (line :: lines) = line ++ newline :: joinLines lines := by simp [joinLines]
    rw [hcons, splitLines_line hline, ih hlines]

theorem startLines_eq (contents project : Bytes) :
    startLines contents project =
      if splitLines contents = [] then freshLines project else splitLines contents := by
  unfold startLines
  by_cases hempty : contents = []
  · subst hempty
    rfl
  · rw [if_neg hempty, if_neg (splitLines_ne_nil hempty)]

theorem newline_not_mem_startLines {project : Bytes} (h : newline ∉ project) (contents : Bytes) :
    ∀ line ∈ startLines contents project, newline ∉ line := by
  unfold startLines
  split_ifs
  · have hversion : newline ∉ text "version: \"1\"" := by decide
    have hname : newline ∉ text "name: " := by decide
    have henv : newline ∉ text "env:" := by decide
    simp [freshLines, hversion, hname, henv, h]
  · exact newline_not_mem_splitLines contents

/-- The characters that no added line has. -/
def IsBreak (c : UInt8) : Prop := c = newline ∨ c = carriageReturn

theorem IsBreak.ne {c d : UInt8} (h : IsBreak c) (hnewline : newline ≠ d) (hreturn : carriageReturn ≠ d) :
    c ≠ d := by
  rcases h with rfl | rfl
  · exact hnewline
  · exact hreturn

theorem IsBreak.not_mem {c : UInt8} (h : IsBreak c) {s : Bytes} (hnewline : newline ∉ s)
    (hreturn : carriageReturn ∉ s) :
    c ∉ s := by
  rcases h with rfl | rfl
  · exact hnewline
  · exact hreturn

theorem IsBreak.not_mem_spaces {c : UInt8} (h : IsBreak c) {indent : Nat} {s : Bytes} (hs : c ∉ s) :
    c ∉ spaces indent ++ s := by
  rw [List.mem_append, not_or]
  refine ⟨fun hmem => ?_, hs⟩
  exact h.ne (by decide) (by decide) (List.eq_of_mem_replicate hmem)

theorem AtMostKey.not_mem {c : UInt8} (hc : IsBreak c) {key : Bytes} {added : List Bytes}
    (h : AtMostKey key added) (hkey : c ∉ key) : ∀ line ∈ added, c ∉ line := by
  rcases h with rfl | ⟨indent, rfl⟩
  · exact nofun
  · have hcolon : c ≠ colon := hc.ne (by decide) (by decide)
    rw [List.forall_mem_singleton, List.append_assoc]
    exact hc.not_mem_spaces (by simp [hkey, hcolon])

theorem indentStep_pos (lines : List Bytes) : 0 < indentStep lines := by
  unfold indentStep
  cases hfind : lines.find? fun line => isContent line && decide (0 < indentOf line) with
  | none => exact Nat.two_pos
  | some line =>
    have hdeep := List.find?_some hfind
    simp only [Bool.and_eq_true, decide_eq_true_eq] at hdeep
    exact hdeep.2

theorem lt_valueIndent (lines : List Bytes) (secrets : Block) {step : Nat} (hstep : 0 < step) :
    secrets.entryIndent < valueIndent lines secrets step := by
  unfold valueIndent
  cases hfind : (linesIn lines (secrets.keyLine + 1) secrets.last).find?
      fun line => isContent line && decide (secrets.entryIndent < indentOf line) with
  | none =>
    rw [Option.map_none, Option.getD_none]
    omega
  | some line =>
    have hdeep := List.find?_some hfind
    simp only [Bool.and_eq_true, decide_eq_true_eq] at hdeep
    exact hdeep.2

/-! The whole edit. -/

section

variable {contents project env out : Bytes} {nameToVar : KeyValues}

/-- What an edit asks of its arguments. -/
def Editable (env : Bytes) (nameToVar : KeyValues) : Prop :=
  requireSegment env (text "environment") = .ok () ∧
    (nameToVar.forM fun pair => do
      Prog.throwIf (!isIdentifier pair.2)
        (.runtimeError (text "invalid environment variable name '" ++ pair.2 ++ text "'"))
      requireSegment pair.1 (text "secret name")) = (.ok () : Except Thrown Unit)

theorem editManifest_eq_ok : editManifest contents project env nameToVar = .ok out ↔ Editable env nameToVar ∧
    ∃ lines secrets added, ensureBlocks (startLines contents project) (indentStep (splitLines contents)) env =
        .ok (lines, secrets) ∧
      addedLines lines secrets (valueIndent lines secrets (indentStep (splitLines contents))) nameToVar =
        .ok added ∧
      joinLines (insertLines lines (insertPoint lines (secrets.keyLine + 1) secrets.last secrets.entryIndent)
        added) = out := by
  rw [startLines_eq]
  constructor
  · intro h
    obtain ⟨_, hsegment, h⟩ := Prog.except_bind_eq_ok.mp h
    obtain ⟨_, hpairs, h⟩ := Prog.except_bind_eq_ok.mp h
    obtain ⟨⟨lines₁, root⟩, h₁, h⟩ := Prog.except_bind_eq_ok.mp h
    obtain ⟨⟨lines₂, envs⟩, h₂, h⟩ := Prog.except_bind_eq_ok.mp h
    obtain ⟨⟨lines₃, secrets⟩, h₃, h⟩ := Prog.except_bind_eq_ok.mp h
    obtain ⟨added, hadded, h⟩ := Prog.except_bind_eq_ok.mp h
    exact ⟨⟨hsegment, hpairs⟩, lines₃, secrets, added,
      ensureBlocks_eq_ok.mpr ⟨lines₁, root, lines₂, envs, h₁, h₂, h₃⟩, hadded, Except.ok.inj h⟩
  · rintro ⟨⟨hsegment, hpairs⟩, lines, secrets, added, hblocks, hadded, rfl⟩
    obtain ⟨lines₁, root, lines₂, envs, h₁, h₂, h₃⟩ := ensureBlocks_eq_ok.mp hblocks
    refine Prog.except_bind_eq_ok.mpr ⟨(), hsegment, Prog.except_bind_eq_ok.mpr ⟨(), hpairs, ?_⟩⟩
    refine Prog.except_bind_eq_ok.mpr ⟨(lines₁, root), h₁, Prog.except_bind_eq_ok.mpr ⟨(lines₂, envs), h₂, ?_⟩⟩
    exact Prog.except_bind_eq_ok.mpr ⟨(lines, secrets), h₃, Prog.except_bind_eq_ok.mpr ⟨added, hadded, rfl⟩⟩

theorem findChild_body (n : Nest) (body : List Bytes) (step indent : Nat) (key : Bytes) :
    findChild (n.lines body) ((n.block body step).keyLine + 1) (n.block body step).last indent key =
      findChildFrom indent key n.above.length body := by
  rw [findChild, n.block_first, n.block_last, n.lines_parts, linesIn_parts]

/-- The pairs whose name is at no line of a body. -/
def absentFrom (body : List Bytes) (indent : Nat) (nameToVar : KeyValues) : KeyValues :=
  nameToVar.filter fun pair => !body.any (keyAt indent pair.1)

/-- The entries of an edit go into the body of the secrets block. -/
theorem filled_of_added {n : Nest} {body top tail added : List Bytes} {step : Nat} (hstep : 0 < step)
    (hnames : ∀ pair ∈ nameToVar, Identifier pair.1) (hbody : body = top ++ tail) (htail : Idle tail)
    (h : addedLines (n.lines body) (n.block body step) (valueIndent (n.lines body) (n.block body step) step)
      nameToVar = .ok added) :
    added = (absentFrom body (n.block body step).entryIndent nameToVar).flatMap (fun pair =>
        entryLines (n.block body step).entryIndent (valueIndent (n.lines body) (n.block body step) step) pair.1
          pair.2) ∧
      Filled (n.block body step).entryIndent (valueIndent (n.lines body) (n.block body step) step) nameToVar
        (absentFrom body (n.block body step).entryIndent nameToVar) top tail := by
  obtain ⟨hadded, hfound⟩ := addedLines_ok h
  have hsearch : ∀ pair ∈ nameToVar, ∀ found,
      findChild (n.lines body) ((n.block body step).keyLine + 1) (n.block body step).last
          (n.block body step).entryIndent pair.1 = .ok found →
        (found = none ∧ ∀ line ∈ body, keyAt (n.block body step).entryIndent pair.1 line = false) ∨
        ∃ j, found = some j ∧ ∃ line, body.find? (keyAt (n.block body step).entryIndent pair.1) = some line ∧
          bareAt (n.block body step).entryIndent pair.1 line = true := by
    intro pair hpair found h
    rw [findChild_body] at h
    rcases findChildFrom_ok h with hnone | ⟨before, line, rest, hlines, hbefore, hline, hbare, rfl⟩
    · exact .inl hnone
    · exact .inr ⟨_, rfl, findChildFrom_found.mp ⟨_, h⟩⟩
  have hfresh : (nameToVar.filter fun pair => findChild (n.lines body) ((n.block body step).keyLine + 1)
      (n.block body step).last (n.block body step).entryIndent pair.1 = .ok none) =
        absentFrom body (n.block body step).entryIndent nameToVar := by
    refine List.filter_congr fun pair hpair => ?_
    obtain ⟨found, h⟩ := hfound pair hpair
    rcases hsearch pair hpair found h with ⟨rfl, hnone⟩ | ⟨j, rfl, line, hline, -⟩
    · have hany : body.any (keyAt (n.block body step).entryIndent pair.1) = false := by
        refine List.any_eq_false.mpr fun line hline => ?_
        rw [hnone line hline]
        exact Bool.false_ne_true
      simp [h, hany]
    · have hany : body.any (keyAt (n.block body step).entryIndent pair.1) = true :=
        List.any_eq_true.mpr ⟨line, List.mem_of_find?_eq_some hline, List.find?_some hline⟩
      simp [h, hany]
  rw [hfresh] at hadded
  refine ⟨hadded, htail, lt_valueIndent _ _ hstep, hnames, List.filter_sublist, fun pair hpair => ?_⟩
  obtain ⟨found, h⟩ := hfound pair hpair
  rcases hsearch pair hpair found h with ⟨rfl, hnone⟩ | ⟨j, -, hline⟩
  · refine .inl ⟨List.mem_filter.mpr ⟨hpair, ?_⟩, hbody ▸ hnone⟩
    simpa using hnone
  · exact .inr (hbody ▸ hline)

/-- What an edit has put in is found again, so that the next one puts nothing in. -/
theorem addedLines_again {n : Nest} {top tail : List Bytes} {fresh : KeyValues} {indent valueIndent : Nat}
    (h : Filled indent valueIndent nameToVar fresh top tail) {least : Nat}
    (hindent : (firstIndent (top ++ tail)).getD least = indent) (step other : Nat) :
    addedLines (n.lines (top ++ fresh.flatMap (fun pair => entryLines indent valueIndent pair.1 pair.2) ++ tail))
      (n.block (top ++ fresh.flatMap (fun pair => entryLines indent valueIndent pair.1 pair.2) ++ tail)
        step) other nameToVar = .ok [] := by
  refine addedLines_nil fun pair hpair => ?_
  have hsame := h.firstIndent (List.ne_nil_of_mem hpair) hindent (n.secretsIndent + step)
  rw [findChild_body, show Block.entryIndent _ = indent from hsame]
  exact findChildFrom_found.mpr (h.found hpair)

theorem insertLines_nil (lines : List Bytes) (point : Nat) : insertLines lines point [] = lines := by
  rw [insertLines, List.append_nil, List.take_append_drop]

theorem not_mem_entryLines {c : UInt8} (hc : IsBreak c) {nameIndent valueIndent : Nat} {pair : Bytes × Bytes}
    (hname : Identifier pair.1) (hvar : Identifier pair.2) :
    ∀ line ∈ entryLines nameIndent valueIndent pair.1 pair.2, c ∉ line := by
  have hfree {s : Bytes} (hs : Identifier s) : c ∉ s := by
    refine hc.not_mem (fun hmem => ?_) fun hmem => ?_
    · exact absurd (identifier_chars hs _ hmem) (by decide)
    · exact absurd (identifier_chars hs _ hmem) (by decide)
  have hcolon : c ≠ colon := hc.ne (by decide) (by decide)
  have hkey : c ∉ text "env_var_name: " := hc.not_mem (by decide) (by decide)
  rw [entryLines, List.append_assoc, List.append_assoc]
  refine List.forall_mem_cons.mpr ⟨hc.not_mem_spaces ?_, List.forall_mem_singleton.mpr (hc.not_mem_spaces ?_)⟩
  · simp [hfree hname, hcolon]
  · simp [hfree hvar, hkey]

/-- The names that are left out are names of the old text. -/
theorem mem_of_resolved {n : Nest} {lines rootLine nameLine secretsLine top tail : List Bytes} {fresh : KeyValues}
    {nameIndent valueIndent : Nat} (hroot : n.root.Extends lines rootLine)
    (henvs : n.envs.Extends n.root.body nameLine)
    (hsecrets : n.secrets.Extends n.envs.body secretsLine) (hbody : n.secrets.body = top ++ tail)
    (h : Filled nameIndent valueIndent nameToVar fresh top tail) :
    ∀ pair ∈ nameToVar, pair ∈ fresh ∨ ∃ line ∈ lines, keyAt nameIndent pair.1 line = true := by
  intro pair hpair
  rcases h.resolved pair hpair with ⟨hfresh, -⟩ | ⟨line, hline, -⟩
  · exact .inl hfresh
  · have hmem : line ∈ n.secrets.body := hbody ▸ List.mem_of_find?_eq_some hline
    exact .inr ⟨line, hroot.mem.2.1 line (henvs.mem.2.1 line (hsecrets.mem.2.1 line hmem)), List.find?_some hline⟩

/-- The lines of the entries that are missing from a body. -/
def missingLines (body : List Bytes) (nameIndent valueIndent : Nat) (nameToVar : KeyValues) : List Bytes :=
  (absentFrom body nameIndent nameToVar).flatMap fun pair => entryLines nameIndent valueIndent pair.1 pair.2

/-- An edit by its parts: the nest of its blocks, and the innermost body before and after the new entries. -/
structure NestEdit (contents project env : Bytes) (nameToVar : KeyValues) (n : Nest)
    (nameIndent valueIndent : Nat) (top tail : List Bytes) : Prop where
  holds : n.Holds env
  envFirst : n.envIndent = (firstIndent n.root.body).getD (0 + indentStep (splitLines contents))
  secretsFirst : n.secretsIndent = (firstIndent n.envs.body).getD (n.envIndent + indentStep (splitLines contents))
  nameFirst : nameIndent = (firstIndent n.secrets.body).getD (n.secretsIndent + indentStep (splitLines contents))
  root : ∃ added, n.root.Placed 0 (text "env") (startLines contents project) added
  envs : ∃ added, n.envs.Placed n.envIndent env n.root.body added
  secrets : ∃ added, n.secrets.Placed n.secretsIndent (text "secrets") n.envs.body added
  body : n.secrets.body = top ++ tail
  filled : Filled nameIndent valueIndent nameToVar (absentFrom n.secrets.body nameIndent nameToVar) top tail

theorem editManifest_nest (hshown : Visible env) (hnames : ∀ pair ∈ nameToVar, Identifier pair.1)
    (h : editManifest contents project env nameToVar = .ok out) :
    ∃ n nameIndent valueIndent top tail,
    NestEdit contents project env nameToVar n nameIndent valueIndent top tail ∧
      joinLines (n.lines (top ++ missingLines n.secrets.body nameIndent valueIndent nameToVar ++ tail)) =
      out := by
  obtain ⟨-, lines, secrets, added, hblocks, hadded, hout⟩ := editManifest_eq_ok.mp h
  have hstep := indentStep_pos (splitLines contents)
  obtain ⟨n, rootLine, nameLine, secretsLine, hn, rfl, rfl, henvIndent, hsecretsIndent, hroot, henvs, hsecrets⟩ :=
    ensureBlocks_nest hshown hstep hblocks
  obtain ⟨top, tail, hbody, htail, hput⟩ := n.exists_point n.secrets.body (indentStep (splitLines contents))
    (n.block n.secrets.body (indentStep (splitLines contents))).entryIndent
  obtain ⟨rfl, hfilled⟩ := filled_of_added hstep hnames hbody htail hadded
  rw [hput] at hout
  exact ⟨n, _, _, top, tail, ⟨hn, henvIndent, hsecretsIndent, rfl, ⟨_, hroot⟩, ⟨_, henvs⟩, ⟨_, hsecrets⟩, hbody,
    hfilled⟩, hout⟩

namespace NestEdit

variable {n : Nest} {nameIndent valueIndent : Nat} {top tail : List Bytes}

theorem envIndent_pos (h : NestEdit contents project env nameToVar n nameIndent valueIndent top tail) :
    0 < n.envIndent := by
  rw [h.envFirst]
  exact entryIndent_gt h.holds.root.deeper (indentStep_pos _)

theorem lt_secretsIndent (h : NestEdit contents project env nameToVar n nameIndent valueIndent top tail) :
    n.envIndent < n.secretsIndent := by
  rw [h.secretsFirst]
  exact entryIndent_gt h.holds.envs.deeper (indentStep_pos _)

theorem lt_nameIndent (h : NestEdit contents project env nameToVar n nameIndent valueIndent top tail) :
    n.secretsIndent < nameIndent := by
  rw [h.nameFirst]
  exact entryIndent_gt h.holds.secrets.deeper (indentStep_pos _)

theorem deeper (h : NestEdit contents project env nameToVar n nameIndent valueIndent top tail) :
    Deeper n.secretsIndent (top ++ missingLines n.secrets.body nameIndent valueIndent nameToVar ++ tail) :=
  h.filled.deeper_body h.lt_nameIndent (h.body ▸ h.holds.secrets.deeper)

/-- The old lines with the new ones put in. -/
theorem inserted (h : NestEdit contents project env nameToVar n nameIndent valueIndent top tail) :
    ∃ rootLine nameLine secretsLine, (rootLine = [] ∨ rootLine = [text "env:"]) ∧ AtMostKey env nameLine ∧
      AtMostKey (text "secrets") secretsLine ∧
      (∀ pair ∈ nameToVar, pair ∈ absentFrom n.secrets.body nameIndent nameToVar ∨
        ∃ line ∈ startLines contents project, keyAt nameIndent pair.1 line = true) ∧
      Inserted (rootLine ++ (nameLine ++
        (secretsLine ++ missingLines n.secrets.body nameIndent valueIndent nameToVar)))
        (startLines contents project)
        (n.lines (top ++ missingLines n.secrets.body nameIndent valueIndent nameToVar ++ tail)) := by
  obtain ⟨rootLine, hroot⟩ := h.root
  obtain ⟨nameLine, henvs⟩ := h.envs
  obtain ⟨secretsLine, hsecrets⟩ := h.secrets
  have hentries : Inserted (missingLines n.secrets.body nameIndent valueIndent nameToVar) n.secrets.body
      (top ++ missingLines n.secrets.body nameIndent valueIndent nameToVar ++ tail) := by
    have hparts := ((Inserted.refl top).append (Inserted.added
      (missingLines n.secrets.body nameIndent valueIndent nameToVar))).append (Inserted.refl tail)
    rwa [List.append_nil, List.append_nil, List.nil_append, ← h.body] at hparts
  exact ⟨rootLine, nameLine, secretsLine, hroot.atMost, henvs.atMost.imp_right fun h => ⟨_, h⟩,
    hsecrets.atMost.imp_right fun h => ⟨_, h⟩,
    mem_of_resolved hroot.extends henvs.extends hsecrets.extends h.body h.filled,
    hroot.extends.inserted (henvs.extends.inserted (hsecrets.extends.inserted hentries))⟩

/-- A line of an edited text is an old one, or has no break. -/
theorem line {c : UInt8} (hc : IsBreak c) (henv : c ∉ env)
    (hnames : ∀ pair ∈ nameToVar, Identifier pair.1 ∧ Identifier pair.2)
    (h : NestEdit contents project env nameToVar n nameIndent valueIndent top tail) :
    ∀ line ∈ n.lines (top ++ missingLines n.secrets.body nameIndent valueIndent nameToVar ++ tail),
      line ∈ startLines contents project ∨ c ∉ line := by
  obtain ⟨rootLine, nameLine, secretsLine, hrootLine, hnameLine, hsecretsLine, -, hall⟩ := h.inserted
  intro line hline
  rcases hall.mem hline with hadded | hkept
  · refine .inr ?_
    simp only [List.mem_append] at hadded
    rcases hadded with hadded | hadded | hadded | hadded
    · have hroot : AtMostKey (text "env") rootLine := hrootLine.imp_right fun h => ⟨0, h⟩
      exact hroot.not_mem hc (hc.not_mem (by decide) (by decide)) line hadded
    · exact hnameLine.not_mem hc henv line hadded
    · exact hsecretsLine.not_mem hc (hc.not_mem (by decide) (by decide)) line hadded
    · obtain ⟨pair, hpair, hadded⟩ := List.mem_flatMap.mp hadded
      obtain ⟨hname, hvar⟩ := hnames pair (h.filled.sub.subset hpair)
      exact not_mem_entryLines hc hname hvar line hadded
  · exact .inl hkept

theorem splitLines_out (hproject : newline ∉ project) (henv : newline ∉ env)
    (hnames : ∀ pair ∈ nameToVar, Identifier pair.1 ∧ Identifier pair.2)
    (h : NestEdit contents project env nameToVar n nameIndent valueIndent top tail)
    (hout : joinLines (n.lines (top ++ missingLines n.secrets.body nameIndent valueIndent nameToVar ++ tail)) =
    out) :
    splitLines out = n.lines (top ++ missingLines n.secrets.body nameIndent valueIndent nameToVar ++ tail) := by
  rw [← hout]
  refine splitLines_joinLines fun line hline => ?_
  rcases h.line (.inl rfl) henv hnames line hline with hkept | hfree
  · exact newline_not_mem_startLines hproject contents line hkept
  · exact hfree

end NestEdit

theorem editManifest_again (hproject : newline ∉ project) (henv : newline ∉ env) (hshown : Visible env)
    (hnames : ∀ pair ∈ nameToVar, Identifier pair.1 ∧ Identifier pair.2)
    (h : editManifest contents project env nameToVar = .ok out) :
    OnlyInserts contents project env nameToVar out ∧ out = joinLines (splitLines out) ∧
      editManifest out project env nameToVar = .ok out := by
  obtain ⟨n, nameIndent, valueIndent, top, tail, hedit, hout⟩ :=
    editManifest_nest hshown (fun pair hpair => (hnames pair hpair).1) h
  have hlines := hedit.splitLines_out hproject henv hnames hout
  obtain ⟨rootLine, nameLine, secretsLine, hrootLine, hnameLine, hsecretsLine, hmem, hall⟩ := hedit.inserted
  have hindent := hedit.nameFirst.symm
  rw [hedit.body] at hindent
  have hagain := addedLines_again (n := n) hedit.filled hindent
  have hdeeper := hedit.deeper
  rw [← missingLines] at hagain
  generalize hnew : top ++ missingLines n.secrets.body nameIndent valueIndent nameToVar ++ tail = new at *
  refine ⟨⟨rootLine, nameLine, secretsLine, nameIndent, valueIndent, _, hrootLine, hnameLine, hsecretsLine,
    hedit.filled.sub, hmem, hlines ▸ hall⟩, by rw [hlines, hout], ?_⟩
  have hstart : startLines out project = n.lines new := by
    rw [startLines_eq, hlines, if_neg (n.lines_ne_nil new)]
  refine editManifest_eq_ok.mpr ⟨(editManifest_eq_ok.mp h).1, n.lines new,
    n.block new (indentStep (splitLines out)), [], ?_, hagain _ _, ?_⟩
  · rw [hstart]
    exact hedit.holds.ensureBlocks hdeeper _
  · rw [insertLines_nil, hout]

end

/-- The checks of an edit do not change it. -/
theorem manifestWithEntries_edit {yaml : YamlCpp} {contents project env out : Bytes} {nameToVar : KeyValues}
    (h : manifestWithEntries yaml contents project env nameToVar = .ok out) :
    editManifest contents project env nameToVar = .ok out := by
  obtain ⟨edited, hedit, h⟩ := Prog.except_bind_eq_ok.mp h
  obtain ⟨check, -, h⟩ := Prog.except_bind_eq_ok.mp h
  obtain ⟨_, -, h⟩ := Prog.except_bind_eq_ok.mp h
  cases hentries : check.envs[env]? with
  | none =>
    rw [hentries] at h
    cases h
  | some entries =>
    rw [hentries] at h
    obtain ⟨_, -, h⟩ := Prog.except_bind_eq_ok.mp h
    rwa [Except.ok.inj h] at hedit

/-- An edit only puts lines in, every line ends in a newline, and the same edit again
changes nothing. -/
theorem manifestWithEntries_inserts {yaml : YamlCpp} {contents project env out : Bytes} {nameToVar : KeyValues}
    (hproject : newline ∉ project) (henv : newline ∉ env) (hstarts : Starts env)
    (hnames : ∀ pair ∈ nameToVar, Identifier pair.1 ∧ Identifier pair.2)
    (h : manifestWithEntries yaml contents project env nameToVar = .ok out) :
    OnlyInserts contents project env nameToVar out ∧ out = joinLines (splitLines out) ∧
      manifestWithEntries yaml out project env nameToVar = .ok out := by
  have hedit := manifestWithEntries_edit h
  obtain ⟨hinserts, hlines, hagain⟩ := editManifest_again hproject henv hstarts.visible hnames hedit
  refine ⟨hinserts, hlines, ?_⟩
  rw [manifestWithEntries, hagain]
  rwa [manifestWithEntries, hedit] at h

def extendedText : Bytes :=
  text "name: p\n# tail\nenv:\n  e:\n    secrets:\n" ++ text "      A:\n        env_var_name: UV_PUBLISH_TOKEN\n"

def extendedTree : Yaml :=
  .map [(.ofText "name", .ofText "p"), (.ofText "env", .map [(.ofText "e", .map [(.ofText "secrets", .map [
    (.ofText "A", .map [(.ofText "env_var_name", .ofText "UV_PUBLISH_TOKEN")])])])])]

theorem manifestWithEntries_inserts_tail :
    OnlyInserts (text "name: p\n# tail") (text "p") (text "e")
      [(text "A", text "UV_PUBLISH_TOKEN")] extendedText ∧ extendedText = joinLines (splitLines extendedText) ∧
      manifestWithEntries (loadOnly extendedText extendedTree) extendedText (text "p") (text "e")
        [(text "A", text "UV_PUBLISH_TOKEN")] =
        .ok extendedText := by
  have hname : Identifier (text "A") ∧ Identifier (text "UV_PUBLISH_TOKEN") :=
    ⟨isIdentifier_iff.mp (by decide), isIdentifier_iff.mp (by decide)⟩
  apply manifestWithEntries_inserts (by decide) (by decide) (starts_of_text (by decide))
    (List.forall_mem_singleton.mpr hname)
  decide

end Secretov
