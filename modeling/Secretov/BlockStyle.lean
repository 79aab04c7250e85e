import Secretov.Lib.Outline
import Secretov.Sections

/-! Manifests in block style: a line for each key, what a key holds on deeper lines
below it, blank lines and comments anywhere. -/

namespace Secretov

/-- The plain scalars that YAML takes for null. -/
def nullTexts : List Bytes := [text "~", text "null", text "Null", text "NULL"]

def plainNode (s : Bytes) : Yaml := if s ∈ nullTexts then .null else .scalar s

def blockNode (children : List (Yaml × Yaml)) : Yaml :=
  match children with
  | [] => .null
  | _ => .map children

/-- The keys and the values that stand without quotes. -/
structure PlainScalars where
  key : Bytes → Prop
  value : Bytes → Prop

/-- No colon is followed by a blank. -/
def colonsInside : Bytes → Bool
  | [] => true
  | c :: s => (c != colon || s.head?.all (!isBlank ·)) && colonsInside s

/-- The shape of a plain value: it starts with neither a blank nor a comment, and is on one line. -/
def ValueForm (s : Bytes) : Prop := s.head?.any visible = true ∧ newline ∉ s ∧ carriageReturn ∉ s

instance (s : Bytes) : Decidable (ValueForm s) := inferInstanceAs (Decidable (_ ∧ _))

def KeyForm (s : Bytes) : Prop := ValueForm s ∧ colonsInside s = true

instance (s : Bytes) : Decidable (KeyForm s) := inferInstanceAs (Decidable (_ ∧ _))

/-- Before the newline: nothing, or the carriage return of a CRLF. -/
def LineEnd (e : Bytes) : Prop := e = [] ∨ e = [carriageReturn]

def headLine (indent : Nat) (key e : Bytes) : Bytes := spaces indent ++ (key ++ colon :: e)

def leafLine (indent : Nat) (key value e : Bytes) : Bytes :=
    spaces indent ++ (key ++ colon :: blank :: (value ++ e))

/-- The lines `key: value` and `key:`, with keys and values of a kind. -/
def blockOutline (plain : PlainScalars) : Outline Bytes (Yaml × Yaml) where
  depth := indentOf
  leaf line pair := ∃ indent key value e, plain.key key ∧ plain.value value ∧ LineEnd e ∧
    line = leafLine indent key value e ∧
    pair = (plainNode key, plainNode value)
  head line children pair := ∃ indent key e, plain.key key ∧ LineEnd e ∧ line = headLine indent key e ∧
    pair = (plainNode key, blockNode children)

/-- A text in block style, and the pairs of its mapping. -/
structure BlockStyle (plain : PlainScalars) (contents : Bytes) (pairs : List (Yaml × Yaml)) : Prop where
  reads : (blockOutline plain).Reads 0 ((splitLines contents).filter isContent) pairs
  ne_nil : pairs ≠ []
  breaks : ∀ line ∈ splitLines contents, carriageReturn ∉ line.dropLast

/-- Plain scalars have their shapes, and identifiers are plain. -/
structure PlainScalars.WellShaped (plain : PlainScalars) : Prop where
  key : ∀ s, plain.key s → KeyForm s
  value : ∀ s, plain.value s → ValueForm s
  identifier : ∀ s, Identifier s → plain.key s ∧ plain.value s

/-- `YAML::Load` gives this text the meaning that it has in block style. -/
def ReadsBlocks (yaml : YamlCpp) (plain : PlainScalars) (contents : Bytes) : Prop :=
  ∀ pairs, BlockStyle plain contents pairs → yaml.load contents = .ok (.map pairs)

/-- The scalars that YAML reads back as they are written. -/
def PlainScalars.verbatim (plain : PlainScalars) : PlainScalars where
  key s := plain.key s ∧ s ∉ nullTexts
  value s := plain.value s ∧ s ∉ nullTexts

theorem PlainScalars.WellShaped.verbatim_key {plain : PlainScalars} (h : plain.WellShaped) :
    ∀ s, plain.verbatim.key s → KeyForm s :=
  fun s hs => h.key s hs.1

theorem plainNode_of_notMem {s : Bytes} (h : s ∉ nullTexts) : plainNode s = .scalar s := if_neg h

@[simp] theorem blockNode_pairs (children : List (Yaml × Yaml)) : (blockNode children).pairs = children := by
  cases children with
  | nil => rfl
  | cons pair children => rfl

/-! Plain scalars. -/

section

variable {key k s rest tail : Bytes}

theorem ValueForm.visible (h : ValueForm s) : Visible s := by
  cases s with
  | nil => exact absurd h.1 (by simp)
  | cons c s => exact ⟨c, s, rfl, by simpa using h.1⟩

theorem colonsInside_append (h : colonsInside (key ++ colon :: s) = true) : ∀ c ∈ s.head?, isBlank c = false := by
  induction key with
  | nil =>
    intro c hc
    rw [List.nil_append, colonsInside, Option.mem_def.mp hc] at h
    simpa using (Bool.and_eq_true_iff.mp h).1
  | cons c key ih =>
    rw [List.cons_append, colonsInside, Bool.and_eq_true] at h
    exact ih h.2

/-- After a colon, a plain key goes on, or ends. -/
theorem KeyForm.after_colon (h : KeyForm (key ++ colon :: s)) :
    ∀ c ∈ s.head?, isBlank c = false ∧ c ≠ carriageReturn := by
  refine fun c hc => ⟨colonsInside_append h.2 c hc, ?_⟩
  rintro rfl
  exact h.1.2.2 (by simp [List.mem_of_mem_head? hc])

/-- What may follow the colon of a key. -/
def AfterKey (rest : Bytes) : Prop := ∀ c ∈ rest.head?, isBlank c = true ∨ c = carriageReturn

theorem LineEnd.afterKey {e : Bytes} (h : LineEnd e) : AfterKey e := by
  rcases h with rfl | rfl
  · exact nofun
  · exact fun c hc => .inr (by simpa using hc.symm)

theorem afterKey_value (value e : Bytes) : AfterKey (blank :: (value ++ e)) := by
  rintro c ⟨⟩
  exact .inl (by decide)

theorem KeyForm.not_afterKey (h : KeyForm (key ++ colon :: s)) (more : Bytes) :
    ¬AfterKey (s ++ colon :: more) := by
  intro hafter
  cases s with
  | nil =>
    have hcolon := hafter colon rfl
    revert hcolon
    decide
  | cons c s =>
    obtain ⟨hblank, hreturn⟩ := h.after_colon c rfl
    rcases hafter c rfl with hc | hc
    · rw [hblank] at hc
      cases hc
    · exact hreturn hc

/-- A key's text up to a colon, in a line: the whole key, or the start of a longer one. -/
theorem key_cut (hkey : KeyForm key) (hrest : AfterKey rest) (h : key ++ colon :: tail = k ++ colon :: rest) :
    k = key ∧ tail = rest ∨ ∃ more, k = key ++ colon :: more ∧ tail = more ++ colon :: rest := by
  rcases List.append_eq_append_iff.mp h with ⟨more, rfl, hmore⟩ | ⟨more, rfl, hmore⟩
  · cases more with
    | nil => exact .inl ⟨List.append_nil _, (List.cons.inj hmore).2⟩
    | cons c more =>
      obtain ⟨rfl, rfl⟩ := List.cons.inj hmore
      exact .inr ⟨more, rfl, rfl⟩
  · cases more with
    | nil => exact .inl ⟨(List.append_nil _).symm, (List.cons.inj hmore).2.symm⟩
    | cons c more =>
      obtain ⟨rfl, rfl⟩ := List.cons.inj hmore
      exact absurd hrest (hkey.not_afterKey _)

theorem key_unique (hkey : KeyForm key) (hk : KeyForm k) (htail : AfterKey tail) (hrest : AfterKey rest)
    (h : key ++ colon :: tail = k ++ colon :: rest) : key = k ∧ tail = rest := by
  rcases key_cut hkey hrest h with ⟨rfl, rfl⟩ | ⟨more, rfl, rfl⟩
  · exact ⟨rfl, rfl⟩
  · exact absurd htail (hk.not_afterKey _)

theorem Identifier.keyForm (h : Identifier s) : KeyForm s := by
  have hchars := identifier_chars h
  have hcolon : ∀ c ∈ s, c ≠ colon := by
    rintro c hc rfl
    exact absurd (hchars _ hc) (by decide)
  obtain ⟨c, more, rfl, hc⟩ := h.starts.visible
  refine ⟨⟨by simpa using hc, fun hmem => absurd (hchars _ hmem) (by decide),
    fun hmem => absurd (hchars _ hmem) (by decide)⟩, ?_⟩
  generalize c :: more = s at hcolon
  induction s with
  | nil => rfl
  | cons c s ih =>
    obtain ⟨hc, hs⟩ := List.forall_mem_cons.mp hcolon
    simp [colonsInside, hc, ih hs]

end

/-! Lines. -/

section

variable {plain : PlainScalars} {indent : Nat} {key rest line : Bytes}

theorem plain_line (hkey : KeyForm key) (indent : Nat) (rest : Bytes) :
    isContent (spaces indent ++ (key ++ rest)) = true ∧ indentOf (spaces indent ++ (key ++ rest)) = indent := by
  obtain ⟨c, s, rfl, hc⟩ := hkey.1.visible
  exact content_spaces indent hc (s ++ rest)

theorem line_unique {indent' : Nat} {key' rest' : Bytes} (hkey : KeyForm key) (hkey' : KeyForm key')
    (hrest : AfterKey rest) (hrest' : AfterKey rest')
    (h : spaces indent ++ (key ++ colon :: rest) = spaces indent' ++ (key' ++ colon :: rest')) :
    key = key' ∧ rest = rest' := by
  have hindent := congrArg indentOf h
  rw [(plain_line hkey indent _).2, (plain_line hkey' indent' _).2] at hindent
  subst hindent
  exact key_unique hkey hkey' hrest hrest' (List.append_cancel_left h)

theorem value_unique {value value' e e' : Bytes} (hvalue : carriageReturn ∉ value)
    (hvalue' : carriageReturn ∉ value')
    (he : LineEnd e) (he' : LineEnd e') (h : value ++ e = value' ++ e') : value = value' := by
  have hcut {s : Bytes} (hs : carriageReturn ∉ s) : s.filter (· != carriageReturn) = s := by
    refine List.filter_eq_self.mpr fun c hc => ?_
    simp only [bne_iff_ne]
    rintro rfl
    exact hs hc
  have hend {e : Bytes} (he : LineEnd e) : e.filter (· != carriageReturn) = [] := by
    rcases he with rfl | rfl <;> rfl
  have hfilter := congrArg (List.filter (· != carriageReturn)) h
  simpa only [List.filter_append, hcut hvalue, hcut hvalue', hend he, hend he', List.append_nil] using hfilter

/-- A text in block style has one meaning. -/
theorem BlockStyle.unique (hplain : plain.WellShaped) {contents : Bytes} {pairs pairs' : List (Yaml × Yaml)}
    (h : BlockStyle plain contents pairs) (h' : BlockStyle plain contents pairs') : pairs = pairs' := by
  refine h.reads.unique ?_ ?_ ?_ h'.reads
  · rintro _ _ _ ⟨indent, key, value, e, hkey, hvalue, he, rfl, rfl⟩
      ⟨indent', key', value', e', hkey', hvalue', he', hline, rfl⟩
    obtain ⟨rfl, hrest⟩ := line_unique (hplain.key _ hkey) (hplain.key _ hkey') (afterKey_value _ _)
      (afterKey_value _ _) hline
    rw [value_unique (hplain.value _ hvalue).2.2 (hplain.value _ hvalue').2.2 he he' (List.cons.inj hrest).2]
  · rintro _ _ _ _ ⟨indent, key, e, hkey, he, rfl, rfl⟩ ⟨indent', key', e', hkey', he', hline, rfl⟩
    rw [(line_unique (hplain.key _ hkey) (hplain.key _ hkey') he.afterKey he'.afterKey hline).1]
  · rintro _ _ _ _ ⟨indent, key, value, e, hkey, hvalue, he, rfl, rfl⟩ ⟨indent', key', e', hkey', he', hline, rfl⟩
    obtain ⟨-, hrest⟩ := line_unique (hplain.key _ hkey) (hplain.key _ hkey') (afterKey_value _ _)
      he'.afterKey hline
    rcases he' with rfl | rfl
    · cases hrest
    · exact absurd (List.cons.inj hrest).1 (by decide)

theorem reads_leafLine (hkeys : ∀ s, plain.key s → KeyForm s) {value e : Bytes} {lines : List Bytes}
    {pairs : List (Yaml × Yaml)}
    (hkey : plain.key key) (hvalue : plain.value value) (he : LineEnd e)
    (h : (blockOutline plain).Reads indent lines pairs) :
    (blockOutline plain).Reads indent (leafLine indent key value e :: lines)
      ((plainNode key, plainNode value) :: pairs) :=
  .leaf (plain_line (hkeys key hkey) indent _).2 ⟨indent, key, value, e, hkey, hvalue, he, rfl, rfl⟩ h

theorem reads_headLine (hkeys : ∀ s, plain.key s → KeyForm s) {deep : Nat} {e : Bytes} {body lines : List Bytes}
    {children pairs : List (Yaml × Yaml)} (hkey : plain.key key) (he : LineEnd e) (hlt : indent < deep)
    (hbody : (blockOutline plain).Reads deep body children) (h : (blockOutline plain).Reads indent lines pairs) :
    (blockOutline plain).Reads indent (headLine indent key e :: (body ++ lines))
      ((plainNode key, blockNode children) :: pairs) :=
  .block (plain_line (hkeys key hkey) indent _).2 ⟨indent, key, e, hkey, he, rfl, rfl⟩ hlt hbody h

theorem reads_of_verbatim {lines : List Bytes} {pairs : List (Yaml × Yaml)}
    (h : (blockOutline plain.verbatim).Reads indent lines pairs) :
    (blockOutline plain).Reads indent lines pairs := by
  have hdepth : (blockOutline plain.verbatim).depth = (blockOutline plain).depth := rfl
  refine h.mono hdepth ?_ ?_
  · rintro _ _ ⟨indent, key, value, e, hkey, hvalue, h⟩
    exact ⟨indent, key, value, e, hkey.1, hvalue.1, h⟩
  · rintro _ _ _ ⟨indent, key, e, hkey, h⟩
    exact ⟨indent, key, e, hkey.1, h⟩

theorem BlockStyle.of_verbatim {contents : Bytes} {pairs : List (Yaml × Yaml)}
    (h : BlockStyle plain.verbatim contents pairs) : BlockStyle plain contents pairs :=
  ⟨reads_of_verbatim h.reads, h.ne_nil, h.breaks⟩

end

end Secretov
