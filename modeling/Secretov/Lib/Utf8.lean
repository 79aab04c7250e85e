import Mathlib.Data.List.Basic

/-! Valid UTF-8 as bytes: a text can be cut wherever a code point starts. -/

namespace Utf8

/-- The byte goes on with the code point before it. -/
def continues (b : UInt8) : Bool := b &&& 0xC0 == 0x80

def Valid (s : List UInt8) : Prop := ∃ cs : List Char, s = cs.flatMap String.utf8EncodeChar

/-- The text does not start inside a code point. -/
def Whole (s : List UInt8) : Prop := ∀ b, s.head? = some b → continues b = false

theorem whole_nil : Whole [] := nofun

theorem whole_cons {b : UInt8} {s : List UInt8} (h : continues b = false) : Whole (b :: s) := by
  intro d hd
  obtain rfl := Option.some.inj hd
  exact h

theorem high_bits (x : UInt8) {mask mark : UInt8} (h : mask &&& 0xC0 = 0) :
    (x &&& mask ||| mark) &&& 0xC0 = mark &&& 0xC0 := by
  have hdistrib : (x &&& mask ||| mark) &&& 0xC0 = x &&& mask &&& 0xC0 ||| mark &&& 0xC0 := by
    apply UInt8.eq_of_toBitVec_eq
    simp only [UInt8.toBitVec_and, UInt8.toBitVec_or]
    exact BitVec.and_or_distrib_right
  rw [hdistrib, UInt8.and_assoc, h, UInt8.and_zero, UInt8.zero_or]

theorem continues_ascii {b : UInt8} (h : b < 0x80) : continues b = false := by
  rw [continues, beq_eq_false_iff_ne]
  intro hmark
  have hle : b &&& 0xC0 ≤ b := UInt8.and_le_left
  rw [hmark] at hle
  exact UInt8.not_lt.mpr hle h

/-- The first byte of a code point says that it is one; the others say that they are not. An
ASCII byte is all of its code point. -/
theorem encode_shape (c : Char) : ∃ b more, String.utf8EncodeChar c = b :: more ∧ continues b = false ∧
    (∀ d ∈ more, continues d = true) ∧ (b < 0x80 → more = []) := by
  have hmore (x : UInt8) : continues (x &&& 0x3f ||| 0x80) = true := by
    rw [continues, high_bits x (by decide), beq_iff_eq]
    decide
  have hlead (x mask mark : UInt8) (hmask : mask &&& 0xC0 = 0) (hmark : mark &&& 0xC0 = 0xC0) :
      continues (x &&& mask ||| mark) = false ∧ ¬(x &&& mask ||| mark) < 0x80 := by
    have hbits : (x &&& mask ||| mark) &&& 0xC0 = 0xC0 := (high_bits x hmask).trans hmark
    refine ⟨?_, ?_⟩
    · rw [continues, hbits]
      decide
    · intro hlow
      have hle : (x &&& mask ||| mark) &&& 0xC0 ≤ x &&& mask ||| mark := UInt8.and_le_left
      rw [hbits] at hle
      exact absurd (UInt8.lt_of_le_of_lt hle hlow) (by decide)
  rcases Char.utf8Size_eq c with hsize | hsize | hsize | hsize
  · rw [String.utf8EncodeChar_eq_singleton hsize]
    have hlow : c.val.toUInt8 < 0x80 := by
      have hval := UInt32.le_iff_toNat_le.mp (Char.utf8Size_eq_one_iff.mp hsize)
      have hbound : (127 : UInt32).toNat = 127 := rfl
      have hmark : (0x80 : UInt8).toNat = 128 := rfl
      rw [UInt8.lt_iff_toNat_lt, UInt32.toNat_toUInt8, hmark]
      omega
    exact ⟨_, _, rfl, continues_ascii hlow, nofun, fun _ => rfl⟩
  · rw [String.utf8EncodeChar_eq_cons_cons hsize]
    have hfirst := hlead (c.val >>> 6).toUInt8 0x1f 0xc0 (by decide) (by decide)
    refine ⟨_, _, rfl, hfirst.1, ?_, fun h => absurd h hfirst.2⟩
    simp only [List.mem_singleton, forall_eq, hmore]
  · rw [String.utf8EncodeChar_eq_cons_cons_cons hsize]
    have hfirst := hlead (c.val >>> 12).toUInt8 0x0f 0xe0 (by decide) (by decide)
    refine ⟨_, _, rfl, hfirst.1, ?_, fun h => absurd h hfirst.2⟩
    simp only [List.mem_cons, List.not_mem_nil, or_false, forall_eq_or_imp, forall_eq, hmore, and_self]
  · rw [String.utf8EncodeChar_eq_cons_cons_cons_cons hsize]
    have hfirst := hlead (c.val >>> 18).toUInt8 0x07 0xf0 (by decide) (by decide)
    refine ⟨_, _, rfl, hfirst.1, ?_, fun h => absurd h hfirst.2⟩
    simp only [List.mem_cons, List.not_mem_nil, or_false, forall_eq_or_imp, forall_eq, hmore, and_self]

theorem valid_nil : Valid [] := ⟨[], rfl⟩

theorem Valid.append {s t : List UInt8} (hs : Valid s) (ht : Valid t) : Valid (s ++ t) := by
  obtain ⟨cs, rfl⟩ := hs
  obtain ⟨ds, rfl⟩ := ht
  exact ⟨cs ++ ds, List.flatMap_append.symm⟩

theorem Valid.whole {s : List UInt8} (h : Valid s) : Whole s := by
  obtain ⟨cs, rfl⟩ := h
  cases cs with
  | nil => exact whole_nil
  | cons c cs =>
    obtain ⟨b, more, hc, hb, -, -⟩ := encode_shape c
    rw [List.flatMap_cons, hc]
    exact whole_cons hb

theorem Valid.cut {s t : List UInt8} (h : Valid (s ++ t)) (ht : Whole t) : Valid s ∧ Valid t := by
  obtain ⟨cs, hcs⟩ := h
  induction cs generalizing s with
  | nil =>
    obtain ⟨rfl, rfl⟩ := List.append_eq_nil_iff.mp hcs
    exact ⟨valid_nil, valid_nil⟩
  | cons c cs ih =>
    have hc : Valid (String.utf8EncodeChar c) := ⟨[c], (List.flatMap_singleton _ _).symm⟩
    rw [List.flatMap_cons] at hcs
    rcases List.append_eq_append_iff.mp hcs with ⟨tail, hfirst, hrest⟩ | ⟨tail, hfirst, hrest⟩
    · cases s with
      | nil =>
        rw [List.nil_append] at hcs
        exact ⟨valid_nil, c :: cs, hcs⟩
      | cons b s =>
        cases tail with
        | nil =>
          rw [List.append_nil] at hfirst
          rw [List.nil_append] at hrest
          exact ⟨hfirst ▸ hc, cs, hrest⟩
        | cons d tail =>
          -- the cut would be inside the code point
          obtain ⟨lead, more, hshape, -, hmore, -⟩ := encode_shape c
          rw [hshape, List.cons_append] at hfirst
          obtain ⟨-, htail⟩ := List.cons.inj hfirst
          have hin : continues d = true := hmore d (by rw [htail]; simp)
          rw [hrest] at ht
          rw [ht d rfl] at hin
          cases hin
    · obtain ⟨hs, ht'⟩ := ih hrest.symm
      rw [hfirst]
      exact ⟨hc.append hs, ht'⟩

theorem Valid.after_ascii {s t : List UInt8} {b : UInt8} (h : Valid (s ++ b :: t)) (hb : b < 0x80) : Whole t := by
  obtain ⟨-, cs, hcs⟩ := h.cut (whole_cons (continues_ascii hb))
  cases cs with
  | nil => cases hcs
  | cons c cs =>
    obtain ⟨lead, more, hshape, -, -, hascii⟩ := encode_shape c
    rw [List.flatMap_cons, hshape, List.cons_append] at hcs
    obtain ⟨rfl, rfl⟩ := List.cons.inj hcs
    rw [hascii hb, List.nil_append]
    have hrest : Valid (cs.flatMap String.utf8EncodeChar) := ⟨cs, rfl⟩
    exact hrest.whole

end Utf8
