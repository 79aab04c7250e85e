import Secretov.BlockStyle
import Secretov.ManifestInserts

/-! What the edit of a manifest in block style does to its mapping: at each of the
three blocks it changes the value of one key, or adds the key. -/

namespace Secretov

/-- What the search for a key takes for it: the key, and a key that goes on with `:#`. -/
def takenFor (key : Bytes) : Yaml → Bool
  | .scalar s => s == key || (key ++ [colon, hash]).isPrefixOf s
  | _ => false

def firstTaken (key : Bytes) (pairs : List (Yaml × Yaml)) : Option (Yaml × Yaml) :=
  pairs.find? fun pair => takenFor key pair.1

/-- The pairs under the first key that is taken for `key`. -/
def takenPairs (key : Bytes) (pairs : List (Yaml × Yaml)) : List (Yaml × Yaml) :=
  ((firstTaken key pairs).map fun pair => pair.2.pairs).getD []

/-- The value of the first key that is taken for `key` is changed, or `key` is added. -/
inductive Edited (key : Bytes) (old new : List (Yaml × Yaml)) : List (Yaml × Yaml) → List (Yaml × Yaml) → Prop
  | found {before after : List (Yaml × Yaml)} {k : Yaml} : (∀ pair ∈ before, takenFor key pair.1 = false) →
    takenFor key k = true →
    Edited key old new (before ++ (k, blockNode old) :: after) (before ++ (k, blockNode new) :: after)
  | added {pairs : List (Yaml × Yaml)} : (∀ pair ∈ pairs, takenFor key pair.1 = false) → old = [] →
    Edited key old new pairs (pairs ++ [(.scalar key, blockNode new)])

/-- The lines that are read. -/
def contentOf (lines : List Bytes) : List Bytes := lines.filter isContent

theorem contentOf_append (lines lines' : List Bytes) :
    contentOf (lines ++ lines') = contentOf lines ++ contentOf lines' :=
  List.filter_append lines lines'

theorem contentOf_cons {line : Bytes} (h : isContent line = true) (lines : List Bytes) :
    contentOf (line :: lines) = line :: contentOf lines :=
  List.filter_cons_of_pos h

theorem Idle.contentOf {lines : List Bytes} (h : Idle lines) : contentOf lines = [] := by
  refine List.filter_eq_nil_iff.mpr fun line hline => ?_
  rw [h line hline]
  exact Bool.false_ne_true

theorem head?_contentOf (lines : List Bytes) : (contentOf lines).head?.map indentOf = firstIndent lines := by
  rw [contentOf, List.head?_filter, firstIndent]

section

variable {plain : PlainScalars} {indent : Nat} {key line : Bytes} {lines : List Bytes}
    {pairs : List (Yaml × Yaml)}

theorem takenFor_scalar {k : Bytes} :
    takenFor key (.scalar k) = true ↔ k = key ∨ ∃ more, k = key ++ colon :: hash :: more := by
  simp only [takenFor, Bool.or_eq_true, beq_iff_eq, List.isPrefixOf_iff_prefix]
  refine or_congr_right ⟨?_, ?_⟩
  · rintro ⟨more, rfl⟩
    exact ⟨more, by simp⟩
  · rintro ⟨more, rfl⟩
    exact ⟨more, by simp⟩

/-- A line that is read has a key. -/
theorem line_key {pair : Yaml × Yaml}
    (h : (blockOutline plain).leaf line pair ∨ ∃ children, (blockOutline plain).head line children pair) :
    ∃ deep k rest, plain.key k ∧ line = spaces deep ++ (k ++ colon :: rest) ∧ AfterKey rest ∧
    pair.1 = plainNode k := by
  rcases h with ⟨deep, k, value, e, hk, -, -, rfl, rfl⟩ | ⟨children, deep, k, e, hk, he, rfl, rfl⟩
  · exact ⟨deep, k, _, hk, rfl, afterKey_value value e, rfl⟩
  · exact ⟨deep, k, e, hk, rfl, he.afterKey, rfl⟩

theorem keyAt_line {k rest : Bytes} (hk : KeyForm k) :
    keyAt indent key (spaces indent ++ (k ++ colon :: rest)) = (key ++ [colon]).isPrefixOf
    (k ++ colon :: rest) := by
  obtain ⟨hcontent, hindent⟩ := plain_line hk indent (colon :: rest)
  simp [keyAt, hcontent, hindent, drop_spaces]

/-- The search goes past a key that is not taken. -/
theorem keyAt_of_takenFor {k rest : Bytes} (hk : KeyForm k) (h : takenFor key (.scalar k) = true) :
    keyAt indent key (spaces indent ++ (k ++ colon :: rest)) = true := by
  rw [keyAt_line hk, List.isPrefixOf_iff_prefix]
  rcases takenFor_scalar.mp h with rfl | ⟨more, rfl⟩
  · exact ⟨rest, by simp⟩
  · exact ⟨hash :: (more ++ colon :: rest), by simp⟩

/-- What the search stops at is taken. -/
theorem takenFor_of_keyAt {k rest : Bytes} (hkey : KeyForm key) (hk : KeyForm k) (hrest : AfterKey rest)
    (hkeyed : keyAt indent key (spaces indent ++ (k ++ colon :: rest)) = true)
    (hbare : bareAt indent key (spaces indent ++ (k ++ colon :: rest)) = true) :
    takenFor key (.scalar k) = true := by
  rw [keyAt_line hk, List.isPrefixOf_iff_prefix] at hkeyed
  obtain ⟨tail, htail⟩ := hkeyed
  rw [List.append_assoc, List.singleton_append] at htail
  rw [bareAt, drop_spaces, ← htail] at hbare
  have hdrop : (key ++ colon :: tail).drop (key.length + 1) = tail := by
    rw [← List.drop_drop, List.drop_left]
    rfl
  rw [hdrop] at hbare
  rcases key_cut hkey hrest htail with ⟨rfl, -⟩ | ⟨more, rfl, rfl⟩
  · exact takenFor_scalar.mpr (.inl rfl)
  · cases more with
    | nil =>
      have hnot : blankOrComment (colon :: rest) = false := rfl
      rw [List.nil_append, hnot] at hbare
      cases hbare
    | cons c more =>
      obtain ⟨hblank, hreturn⟩ := hk.after_colon c rfl
      simp only [isBlank, Bool.or_eq_false_iff, beq_eq_false_iff_ne] at hblank
      rw [List.cons_append, blankOrComment] at hbare
      by_cases hc : c = hash
      · subst hc
        exact takenFor_scalar.mpr (.inr ⟨more, rfl⟩)
      · rw [if_neg hc, if_pos ⟨hblank.1, hblank.2, hreturn⟩] at hbare
        cases hbare

theorem not_takenFor_line (hkeys : ∀ s, plain.key s → KeyForm s) {pair : Yaml × Yaml}
    (h : (blockOutline plain).leaf line pair ∨ ∃ children, (blockOutline plain).head line children pair)
    (hindent : indentOf line = indent) (hline : keyAt indent key line = false) : takenFor key pair.1 = false := by
  obtain ⟨deep, k, rest, hk, rfl, -, hpair⟩ := line_key h
  rw [(plain_line (hkeys k hk) deep _).2] at hindent
  subst hindent
  rw [hpair, plainNode]
  split_ifs
  · rfl
  · by_contra htaken
    rw [Bool.not_eq_false] at htaken
    rw [keyAt_of_takenFor (hkeys k hk) htaken] at hline
    cases hline

/-- Where the search finds no line, no key is taken. -/
theorem not_takenFor (hkeys : ∀ s, plain.key s → KeyForm s) (h : (blockOutline plain).Reads indent lines pairs)
    (hlines : ∀ line ∈ lines, keyAt indent key line = false) : ∀ pair ∈ pairs, takenFor key pair.1 = false := by
  induction h with
  | nil => exact nofun
  | leaf hindent hleaf _ ih =>
    obtain ⟨hfirst, hrest⟩ := List.forall_mem_cons.mp hlines
    exact List.forall_mem_cons.mpr ⟨not_takenFor_line hkeys (.inl hleaf) hindent hfirst, ih hrest⟩
  | block hindent hhead _ _ _ _ ih =>
    obtain ⟨hfirst, hrest⟩ := List.forall_mem_cons.mp hlines
    exact List.forall_mem_cons.mpr ⟨not_takenFor_line hkeys (.inr ⟨_, hhead⟩) hindent hfirst,
      ih (List.forall_mem_append.mp hrest).2⟩

theorem reads_firstIndent (h : (blockOutline plain).Reads indent (contentOf lines) pairs) (least : Nat) :
    (blockOutline plain).Reads ((firstIndent lines).getD least) (contentOf lines) pairs := by
  rw [← head?_contentOf]
  exact h.at_head least

end

/-- What a key holds is read in the same way. -/
theorem reads_inner {plain : PlainScalars} {indent : Nat} {lines : List Bytes} {pairs : List (Yaml × Yaml)}
    (h : (blockOutline plain).Reads indent lines pairs) :
    ∀ pair ∈ pairs, ∃ deep body, (blockOutline plain).Reads deep body pair.2.pairs := by
  induction h with
  | nil => exact nofun
  | leaf _ hleaf _ ih =>
    obtain ⟨_, _, value, _, _, _, _, _, rfl⟩ := hleaf
    refine List.forall_mem_cons.mpr ⟨⟨0, [], ?_⟩, ih⟩
    unfold plainNode
    split_ifs <;> exact .nil
  | @block _ deep _ _ body _ children _ _ hhead _ hbody _ _ ih =>
    obtain ⟨_, _, _, _, _, _, rfl⟩ := hhead
    refine List.forall_mem_cons.mpr ⟨⟨deep, body, ?_⟩, ih⟩
    rw [blockNode_pairs]
    exact hbody

theorem reads_takenPairs {plain : PlainScalars} {indent : Nat} {lines : List Bytes} {pairs : List (Yaml × Yaml)}
    (h : (blockOutline plain).Reads indent lines pairs) (key : Bytes) :
    ∃ deep body, (blockOutline plain).Reads deep body (takenPairs key pairs) := by
  unfold takenPairs
  cases hfirst : firstTaken key pairs with
  | none => exact ⟨0, [], .nil⟩
  | some pair => exact reads_inner h pair (List.mem_of_find?_eq_some hfirst)

theorem scalar_key {plain : PlainScalars} {indent : Nat} {lines : List Bytes} {pairs : List (Yaml × Yaml)}
    (h : (blockOutline plain.verbatim).Reads indent lines pairs) :
    ∀ pair ∈ pairs, ∃ key, pair.1 = .scalar key := by
  induction h with
  | nil => exact nofun
  | leaf _ hleaf _ ih =>
    obtain ⟨_, key, _, _, hkey, _, _, _, rfl⟩ := hleaf
    exact List.forall_mem_cons.mpr ⟨⟨key, plainNode_of_notMem hkey.2⟩, ih⟩
  | block _ hhead _ _ _ _ ih =>
    obtain ⟨_, key, _, hkey, _, _, rfl⟩ := hhead
    exact List.forall_mem_cons.mpr ⟨⟨key, plainNode_of_notMem hkey.2⟩, ih⟩

theorem firstTaken_eq {key : Bytes} {before after : List (Yaml × Yaml)} {pair : Yaml × Yaml}
    (hbefore : ∀ pair ∈ before, takenFor key pair.1 = false) (hpair : takenFor key pair.1 = true) :
    firstTaken key (before ++ pair :: after) = some pair := by
  refine List.find?_eq_some_iff_append.mpr ⟨hpair, before, after, rfl, fun other hother => ?_⟩
  rw [hbefore other hother]
  rfl

theorem firstTaken_eq_none {key : Bytes} {pairs : List (Yaml × Yaml)}
    (h : ∀ pair ∈ pairs, takenFor key pair.1 = false) : firstTaken key pairs = none :=
  List.find?_eq_none.mpr fun pair hpair => by simp [h pair hpair]

theorem Closed.back {plain : PlainScalars} {indent : Nat} {lines post : List Bytes}
    (h : Closed indent (lines ++ post)) :
    (blockOutline plain).Back indent (contentOf lines) := by
  cases lines with
  | nil => exact nofun
  | cons line lines =>
    obtain ⟨hcontent, hle⟩ := h line (lines ++ post) rfl
    rw [contentOf_cons hcontent]
    rintro _ ⟨⟩
    exact hle

section

variable {plain : PlainScalars} {s : Section} {seg added post : List Bytes} {indent : Nat} {key : Bytes}
  {pairs : List (Yaml × Yaml)}

/-- The block of a section, read before its body is changed and after. -/
theorem Section.Placed.reads (hplain : plain.WellShaped) (hput : s.Placed indent key seg added)
    (hholds : s.Holds indent key post) (hkey : plain.verbatim.key key)
    (hseg : (blockOutline plain.verbatim).Reads indent (contentOf seg) pairs)
    (hnode : ∀ pair ∈ firstTaken key pairs, pair.2.isScalar = false) :
    (∃ deep, (blockOutline plain.verbatim).Reads deep (contentOf s.body) (takenPairs key pairs)) ∧
      ∀ body deep new, indent < deep → (blockOutline plain).Reads deep (contentOf body) new →
        ∃ pairs', (blockOutline plain).Reads indent (contentOf (s.withBody body).lines) pairs' ∧
          Edited key (takenPairs key pairs) new pairs pairs' := by
  have hkeys := hplain.verbatim_key
  have hcontent := keyAt_content hholds.keyed
  have hlines : ∀ body, contentOf (s.withBody body).lines =
      contentOf s.before ++ s.keyLine :: (contentOf body ++ contentOf s.after) := by
    intro body
    rw [Section.withBody, Section.lines, contentOf_append, contentOf_cons hcontent, contentOf_append]
  rcases hput with ⟨-, rfl⟩ | ⟨-, hline, rfl, hafter, hidle, hnone⟩
  · have hsame := hlines s.body
    rw [show s.withBody s.body = s from rfl] at hsame
    rw [hsame] at hseg
    obtain ⟨ts₁, ts₂, rfl, hbefore, hrest⟩ := hseg.split (keyAt_indent hholds.keyed)
    have hdeeper : ∀ line ∈ contentOf s.body, indent < indentOf line := fun line hline =>
      hholds.deeper line (List.mem_filter.mp hline).1 (List.mem_filter.mp hline).2
    have hbefore' := not_takenFor hkeys hbefore fun line hline => hholds.first line (List.mem_filter.mp hline).1
    obtain ⟨pair, ts, rfl, -, hafter, hread⟩ := hrest.cons_cases hdeeper hholds.closed.back
    have htaken : takenFor key pair.1 = true := by
      obtain ⟨deep, k, rest, hk, hline, hend, hpair⟩ :=
        line_key (hread.imp And.left fun hblock => by
          obtain ⟨_, _, _, hhead, -⟩ := hblock
          exact ⟨_, hhead⟩)
      have hindent := keyAt_indent hholds.keyed
      rw [hline, (plain_line (hkeys k hk) deep _).2] at hindent
      subst hindent
      rw [hpair, plainNode_of_notMem hk.2]
      exact takenFor_of_keyAt (hkeys key hkey) (hkeys k hk) hend (hline ▸ hholds.keyed) (hline ▸ hholds.bare)
    rcases hread with ⟨⟨_, k, value, e, -, hvalue, -, -, rfl⟩, -⟩ |
      ⟨deep, old, hlt, ⟨_, k, e, hk, he, hline, rfl⟩, hbody⟩
    · have hscalar := hnode _ (firstTaken_eq hbefore' htaken)
      rw [plainNode_of_notMem hvalue.2] at hscalar
      cases hscalar
    · have hold : takenPairs key (ts₁ ++ (plainNode k, blockNode old) :: ts) = old := by
        rw [takenPairs, firstTaken_eq hbefore' htaken, Option.map_some, Option.getD_some, blockNode_pairs]
      rw [hold]
      refine ⟨⟨deep, hbody⟩, fun body deep' new hlt' hnew => ⟨_, ?_, .found hbefore' htaken⟩⟩
      rw [hlines]
      refine (reads_of_verbatim hbefore).append
        (.block (keyAt_indent hholds.keyed) ?_ hlt' hnew (reads_of_verbatim hafter))
      exact ⟨_, k, e, hk.1, he, hline, rfl⟩
  · have hbody := hidle.contentOf
    have htaken := not_takenFor hkeys hseg fun line hline => hnone line (List.mem_filter.mp hline).1
    have hold : takenPairs key pairs = [] := by
      rw [takenPairs, firstTaken_eq_none htaken]
      rfl
    rw [hold]
    refine ⟨⟨indent, by rw [hbody]; exact .nil⟩, fun body deep' new hlt hnew => ?_⟩
    have hseg' := hseg
    rw [contentOf_append, hbody, List.append_nil] at hseg'
    refine ⟨_, ?_, .added htaken rfl⟩
    rw [hlines, hafter]
    have hkeyLine : s.keyLine = headLine indent key [] := by
      rw [hline, List.append_assoc]
      rfl
    have hblock := reads_headLine hplain.key hkey.1 (.inl rfl) hlt hnew .nil
    rw [plainNode_of_notMem hkey.2, ← hkeyLine] at hblock
    exact (reads_of_verbatim hseg').append hblock

end

/-! The whole edit. -/

/-- A pair's entry under `secrets`. -/
def entryPair (pair : Bytes × Bytes) : Yaml × Yaml :=
  (plainNode pair.1, .map [(plainNode (text "env_var_name"), plainNode pair.2)])

/-- The pairs whose name no key is taken for. -/
def untaken (secrets : List (Yaml × Yaml)) (nameToVar : KeyValues) : KeyValues :=
  nameToVar.filter fun pair => secrets.all fun secret => !takenFor pair.1 secret.1

/-- No key of a block is a scalar's. -/
structure Extendable (env : Bytes) (pairs : List (Yaml × Yaml)) : Prop where
  root : ∀ pair ∈ firstTaken (text "env") pairs, pair.2.isScalar = false
  envs : ∀ pair ∈ firstTaken env (takenPairs (text "env") pairs), pair.2.isScalar = false
  secrets : ∀ pair ∈ firstTaken (text "secrets") (takenPairs env (takenPairs (text "env") pairs)),
    pair.2.isScalar = false

/-- The edit of a mapping, block by block. -/
def MappingEdited (env : Bytes) (nameToVar : KeyValues) (pairs pairs' : List (Yaml × Yaml)) : Prop :=
  let envs := takenPairs (text "env") pairs
  let body := takenPairs env envs
  let secrets := takenPairs (text "secrets") body
  ∃ body' envs', Edited (text "secrets") secrets (secrets ++ (untaken secrets nameToVar).map entryPair)
    body body' ∧ Edited env body body' envs envs' ∧ Edited (text "env") envs envs' pairs pairs'

section

variable {plain : PlainScalars} {contents project env : Bytes} {nameToVar : KeyValues}
    {pairs : List (Yaml × Yaml)}

theorem reads_entryLines (hplain : plain.WellShaped) {nameIndent valueIndent : Nat}
    (hlt : nameIndent < valueIndent) {fresh : KeyValues}
    (hnames : ∀ pair ∈ fresh, Identifier pair.1 ∧ Identifier pair.2) :
    (blockOutline plain).Reads nameIndent
      (contentOf (fresh.flatMap fun pair => entryLines nameIndent valueIndent pair.1 pair.2))
      (fresh.map entryPair) := by
  induction fresh with
  | nil => exact .nil
  | cons pair fresh ih =>
    obtain ⟨⟨hname, hvar⟩, hrest⟩ := List.forall_mem_cons.mp hnames
    have hkey : Identifier (text "env_var_name") := isIdentifier_iff.mp (by decide)
    have hnameLine : spaces nameIndent ++ pair.1 ++ [colon] = headLine nameIndent pair.1 [] := by
      rw [List.append_assoc]
      rfl
    have hvalueLine : spaces valueIndent ++ text "env_var_name: " ++ pair.2 =
        leafLine valueIndent (text "env_var_name") pair.2 [] := by
      have htext : text "env_var_name: " = text "env_var_name" ++ [colon, blank] := by decide
      rw [leafLine, htext]
      simp
    obtain ⟨hcontent, -⟩ := plain_line hname.keyForm nameIndent [colon]
    obtain ⟨hcontent', -⟩ := plain_line hkey.keyForm valueIndent (colon :: blank :: (pair.2 ++ []))
    rw [List.flatMap_cons, contentOf_append, entryLines, hnameLine, hvalueLine]
    unfold headLine leafLine
    rw [contentOf_cons hcontent, contentOf_cons hcontent', List.map_cons, List.cons_append]
    exact reads_headLine hplain.key (hplain.identifier _ hname).1 (.inl rfl) hlt
      (reads_leafLine hplain.key (hplain.identifier _ hkey).1 (hplain.identifier _ hvar).2 (.inl rfl) .nil)
      (ih hrest)

/-- A name is missing from the lines exactly if no key is taken for it. -/
theorem absentFrom_eq {nameIndent valueIndent : Nat} {fresh : KeyValues} {top tail : List Bytes}
    {secrets : List (Yaml × Yaml)} (hplain : plain.WellShaped)
    (hfilled : Filled nameIndent valueIndent nameToVar fresh top tail)
    (h : (blockOutline plain.verbatim).Reads nameIndent (contentOf (top ++ tail)) secrets) :
    absentFrom (top ++ tail) nameIndent nameToVar = untaken secrets nameToVar := by
  have hkeys := hplain.verbatim_key
  refine List.filter_congr fun pair hpair => ?_
  rcases hfilled.resolved pair hpair with ⟨-, hnone⟩ | ⟨line, hfind, hbare⟩
  · have hsecrets := not_takenFor hkeys h fun line hline => hnone line (List.mem_filter.mp hline).1
    have hlines : (top ++ tail).any (keyAt nameIndent pair.1) = false :=
      List.any_eq_false.mpr fun line hline => by simp [hnone line hline]
    have hall : (secrets.all fun secret => !takenFor pair.1 secret.1) = true :=
      List.all_eq_true.mpr fun secret hsecret => by simp [hsecrets secret hsecret]
    rw [hlines, hall]
    rfl
  · have hkeyed := List.find?_some hfind
    have hline := List.mem_of_find?_eq_some hfind
    obtain ⟨secret, hsecret, hread⟩ :=
      h.mem (List.mem_filter.mpr ⟨hline, keyAt_content hkeyed⟩) (keyAt_indent hkeyed)
    obtain ⟨deep, k, rest, hk, rfl, hend, hsame⟩ := line_key hread
    have hindent := keyAt_indent hkeyed
    rw [(plain_line (hkeys k hk) deep _).2] at hindent
    subst hindent
    have htaken : takenFor pair.1 secret.1 = true := by
      rw [hsame, plainNode_of_notMem hk.2]
      exact takenFor_of_keyAt (hfilled.names pair hpair).keyForm (hkeys k hk) hend hkeyed hbare
    have hlines : (top ++ tail).any (keyAt deep pair.1) = true := List.any_eq_true.mpr ⟨_, hline, hkeyed⟩
    have hall : (secrets.all fun secret => !takenFor pair.1 secret.1) = false :=
      List.all_eq_false.mpr ⟨secret, hsecret, by simp [htaken]⟩
    rw [hlines, hall]
    rfl

/-- The mapping of the edited lines: one key changed, or added, at each of the blocks. -/
theorem NestEdit.reads {n : Nest} {nameIndent valueIndent : Nat} {top tail : List Bytes}
    (hplain : plain.WellShaped) (henv : plain.verbatim.key env)
    (hnames : ∀ pair ∈ nameToVar, Identifier pair.1 ∧ Identifier pair.2)
    (hextendable : Extendable env pairs)
    (h : NestEdit contents project env nameToVar n nameIndent valueIndent top tail)
    (hpairs : (blockOutline plain.verbatim).Reads 0 (contentOf (startLines contents project)) pairs) :
    ∃ pairs',
      (blockOutline plain).Reads 0
        (contentOf (n.lines (top ++ missingLines n.secrets.body nameIndent valueIndent nameToVar ++ tail)))
        pairs' ∧
      MappingEdited env nameToVar pairs pairs' := by
  have hverbatim {s : String} (hs : isIdentifier (text s) = true) (hnull : text s ∉ nullTexts) :
      plain.verbatim.key (text s) := ⟨(hplain.identifier _ (isIdentifier_iff.mp hs)).1, hnull⟩
  obtain ⟨_, hroot⟩ := h.root
  obtain ⟨_, henvs⟩ := h.envs
  obtain ⟨_, hsecrets⟩ := h.secrets
  obtain ⟨⟨_, hrootBody⟩, hroot⟩ :=
    hroot.reads hplain h.holds.root (hverbatim (by decide) (by decide)) hpairs hextendable.root
  obtain ⟨⟨_, henvsBody⟩, henvs⟩ := henvs.reads hplain h.holds.envs henv
    (h.envFirst ▸ reads_firstIndent hrootBody _) hextendable.envs
  obtain ⟨⟨_, hsecretsBody⟩, hsecrets⟩ :=
      hsecrets.reads hplain h.holds.secrets (hverbatim (by decide) (by decide))
    (h.secretsFirst ▸ reads_firstIndent henvsBody _) hextendable.secrets
  have hsecretsBody := reads_firstIndent hsecretsBody (n.secretsIndent + indentStep (splitLines contents))
  rw [← h.nameFirst] at hsecretsBody
  unfold MappingEdited
  dsimp only
  generalize takenPairs (text "secrets") (takenPairs env (takenPairs (text "env") pairs)) = secrets at *
  have hfresh := absentFrom_eq hplain h.filled (h.body ▸ hsecretsBody)
  have hnew : (blockOutline plain).Reads nameIndent
      (contentOf (top ++ missingLines n.secrets.body nameIndent valueIndent nameToVar ++ tail))
      (secrets ++ (untaken secrets nameToVar).map entryPair) := by
    have hold := reads_of_verbatim hsecretsBody
    rw [h.body, contentOf_append, h.filled.idle.contentOf, List.append_nil] at hold
    rw [contentOf_append, contentOf_append, h.filled.idle.contentOf, List.append_nil, missingLines, h.body,
      hfresh]
    exact hold.append (reads_entryLines hplain h.filled.deeper fun pair hpair =>
      hnames pair (List.mem_filter.mp hpair).1)
  obtain ⟨body, hbody, hbodyEdited⟩ := hsecrets _ _ _ h.lt_nameIndent hnew
  obtain ⟨envs, henvsRead, henvsEdited⟩ := henvs _ _ _ h.lt_secretsIndent hbody
  obtain ⟨pairs', hread, hedited⟩ := hroot _ _ _ h.envIndent_pos henvsRead
  exact ⟨pairs', hread, body, envs, hbodyEdited, henvsEdited, hedited⟩

theorem Edited.ne_nil {key : Bytes} {old new pairs pairs' : List (Yaml × Yaml)}
    (h : Edited key old new pairs pairs') : pairs' ≠ [] := by
  cases h <;> simp

theorem BlockStyle.contents_ne_nil (h : BlockStyle plain contents pairs) : contents ≠ [] := by
  rintro rfl
  exact h.ne_nil h.reads.eq_nil

/-- An edited text is in block style. -/
theorem editManifest_blockStyle (hplain : plain.WellShaped)
    (henv : plain.verbatim.key env) (hnames : ∀ pair ∈ nameToVar, Identifier pair.1 ∧ Identifier pair.2)
    (hstyle : BlockStyle plain.verbatim contents pairs) (hextendable : Extendable env pairs) {out : Bytes}
    (h : editManifest contents project env nameToVar = .ok out) :
    ∃ pairs', BlockStyle plain out pairs' ∧ MappingEdited env nameToVar pairs pairs' := by
  obtain ⟨⟨-, hnewline, hreturn⟩, -⟩ := hplain.key env henv.1
  obtain ⟨n, nameIndent, valueIndent, top, tail, hedit, hout⟩ :=
    editManifest_nest (hplain.key env henv.1).1.visible (fun pair hpair => (hnames pair hpair).1) h
  -- the project is of no account, since there is a text
  have hstart : ∀ project, startLines contents project = splitLines contents :=
      fun _ => if_neg hstyle.contents_ne_nil
  have hedit : NestEdit contents [] env nameToVar n nameIndent valueIndent top tail :=
    { hedit with root := by rw [hstart]; exact hstart project ▸ hedit.root }
  obtain ⟨pairs', hreads, body, envs, hbody, henvs, hroot⟩ :=
    hedit.reads hplain henv hnames hextendable (by rw [hstart]; exact hstyle.reads)
  have hlines := hedit.splitLines_out List.not_mem_nil hnewline hnames hout
  refine ⟨pairs', ⟨?_, hroot.ne_nil, fun line hline => ?_⟩, body, envs, hbody, henvs, hroot⟩
  · rw [hlines]
    exact hreads
  · rw [hlines] at hline
    rcases hedit.line (.inr rfl) hreturn hnames line hline with hkept | hfree
    · exact hstyle.breaks line (hstart [] ▸ hkept)
    · exact mt List.mem_of_mem_dropLast hfree

end

end Secretov
