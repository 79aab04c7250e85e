import Mathlib.Data.Nat.Bitwise

/-! Base64 with padding: the text of some bytes, and what a text stands for. -/

namespace Base64

def pad : UInt8 := 61

/-- The six bits of a letter. -/
def sextet (c : UInt8) : Option Nat :=
  if 65 ≤ c ∧ c ≤ 90 then some (c.toNat - 65)
  else if 97 ≤ c ∧ c ≤ 122 then some (c.toNat - 71)
  else if 48 ≤ c ∧ c ≤ 57 then some (c.toNat + 4)
  else if c = 43 then some 62
  else if c = 47 then some 63
  else none

def letter (n : UInt8) : UInt8 :=
  if n < 26 then n + 65 else if n < 52 then n + 71 else if n < 62 then n - 4 else if n = 62 then 43 else 47

def encode : List UInt8 → List UInt8
  | a :: b :: c :: s => letter (a >>> 2) :: letter ((a &&& 3) <<< 4 ||| b >>> 4) ::
      letter ((b &&& 15) <<< 2 ||| c >>> 6) :: letter (c &&& 63) :: encode s
  | [a, b] => [letter (a >>> 2), letter ((a &&& 3) <<< 4 ||| b >>> 4), letter ((b &&& 15) <<< 2), pad]
  | [a] => [letter (a >>> 2), letter ((a &&& 3) <<< 4), pad, pad]
  | [] => []

/-- The last four letters, with one or two of them padding. The bits that are not used are zero. -/
def decodeLast (w x y : UInt8) : Option (List UInt8) := do
  let w ← sextet w
  let x ← sextet x
  if y = pad then
    if x % 16 = 0 then return [UInt8.ofNat (w * 4 + x / 16)] else none
  else
    let y ← sextet y
    if y % 4 = 0 then return [UInt8.ofNat (w * 4 + x / 16), UInt8.ofNat (x % 16 * 16 + y / 4)] else none

def decode : List UInt8 → Option (List UInt8)
  | [] => some []
  | w :: x :: y :: z :: rest =>
    if z = pad then
      if rest = [] then decodeLast w x y else none
    else do
      let w ← sextet w
      let x ← sextet x
      let y ← sextet y
      let z ← sextet z
      return UInt8.ofNat (w * 4 + x / 16) :: UInt8.ofNat (x % 16 * 16 + y / 4) :: UInt8.ofNat (y % 4 * 64 + z) ::
        (← decode rest)
  | _ => none

theorem sextet_pad : sextet pad = none := rfl

/-- A text that stands for something is of letters and padding. -/
theorem letter_of_decode {s bytes : List UInt8} (h : decode s = some bytes) :
    ∀ c ∈ s, c = pad ∨ ∃ n, sextet c = some n := by
  fun_induction decode s generalizing bytes with
  | case1 => simp
  | case2 w x y =>
    obtain ⟨w', hw, h⟩ := Option.bind_eq_some_iff.mp h
    obtain ⟨x', hx, h⟩ := Option.bind_eq_some_iff.mp h
    have hy : y = pad ∨ ∃ n, sextet y = some n := by
      by_cases hy : y = pad
      · exact .inl hy
      · rw [if_neg hy] at h
        obtain ⟨y', hy, -⟩ := Option.bind_eq_some_iff.mp h
        exact .inr ⟨y', hy⟩
    simp only [List.forall_mem_cons]
    exact ⟨.inr ⟨w', hw⟩, .inr ⟨x', hx⟩, hy, .inl trivial, by simp⟩
  | case3 => cases h
  | case4 w x y z rest hz ih =>
    obtain ⟨w', hw, h⟩ := Option.bind_eq_some_iff.mp h
    obtain ⟨x', hx, h⟩ := Option.bind_eq_some_iff.mp h
    obtain ⟨y', hy, h⟩ := Option.bind_eq_some_iff.mp h
    obtain ⟨z', hz, h⟩ := Option.bind_eq_some_iff.mp h
    obtain ⟨rest', hrest, -⟩ := Option.bind_eq_some_iff.mp h
    simp only [List.forall_mem_cons]
    exact ⟨.inr ⟨w', hw⟩, .inr ⟨x', hx⟩, .inr ⟨y', hy⟩, .inr ⟨z', hz⟩, ih hrest⟩
  | case5 => cases h

/-- The sextets of three bytes stand for them. -/
theorem decode_three {w x y z a b c : UInt8} {rest bytes : List UInt8} (hw : sextet w = some (a.toNat / 4))
    (hx : sextet x = some (a.toNat % 4 * 16 + b.toNat / 16))
    (hy : sextet y = some (b.toNat % 16 * 4 + c.toNat / 64))
    (hz : sextet z = some (c.toNat % 64)) (hrest : decode rest = some bytes) :
    decode (w :: x :: y :: z :: rest) = some (a :: b :: c :: bytes) := by
  have hpad : z ≠ pad := fun hpad => by simp [hpad, sextet_pad] at hz
  have ha : a.toNat / 4 * 4 + (a.toNat % 4 * 16 + b.toNat / 16) / 16 = a.toNat := by
    have := b.toNat_lt
    omega
  have hb : (a.toNat % 4 * 16 + b.toNat / 16) % 16 * 16 + (b.toNat % 16 * 4 + c.toNat / 64) / 4 = b.toNat := by
    have := b.toNat_lt
    have := c.toNat_lt
    omega
  have hc : (b.toNat % 16 * 4 + c.toNat / 64) % 4 * 64 + c.toNat % 64 = c.toNat := by
    have := c.toNat_lt
    omega
  rw [decode, if_neg hpad, hw, hx, hy, hz, hrest]
  simp only [Option.bind_eq_bind, Option.bind_some, Option.pure_def, ha, hb, hc, UInt8.ofNat_toNat]

theorem decode_two {w x y a b : UInt8} (hw : sextet w = some (a.toNat / 4))
    (hx : sextet x = some (a.toNat % 4 * 16 + b.toNat / 16)) (hy : sextet y = some (b.toNat % 16 * 4)) :
    decode [w, x, y, pad] = some [a, b] := by
  have hpad : y ≠ pad := fun hpad => by simp [hpad, sextet_pad] at hy
  have ha : a.toNat / 4 * 4 + (a.toNat % 4 * 16 + b.toNat / 16) / 16 = a.toNat := by
    have := b.toNat_lt
    omega
  have hb : (a.toNat % 4 * 16 + b.toNat / 16) % 16 * 16 + b.toNat % 16 * 4 / 4 = b.toNat := by
    have := b.toNat_lt
    omega
  have hzero : b.toNat % 16 * 4 % 4 = 0 := by omega
  rw [decode, if_pos rfl, if_pos rfl, decodeLast, hw, hx, hy]
  simp only [Option.bind_eq_bind, Option.bind_some, Option.pure_def, if_neg hpad, if_pos hzero, ha, hb,
    UInt8.ofNat_toNat]

theorem decode_one {w x a : UInt8} (hw : sextet w = some (a.toNat / 4))
    (hx : sextet x = some (a.toNat % 4 * 16)) : decode [w, x, pad, pad] = some [a] := by
  have ha : a.toNat / 4 * 4 + a.toNat % 4 * 16 / 16 = a.toNat := by omega
  have hzero : a.toNat % 4 * 16 % 16 = 0 := by omega
  rw [decode, if_pos rfl, if_pos rfl, decodeLast, hw, hx]
  simp only [Option.bind_eq_bind, Option.bind_some, Option.pure_def, if_pos, if_pos hzero, ha, UInt8.ofNat_toNat]

theorem sextet_letter (n : UInt8) (h : n.toNat < 64) : sextet (letter n) = some n.toNat := by
  have hall : ∀ k : Fin 64, sextet (letter (UInt8.ofNat k)) = some k.1 := by decide
  have hn := hall ⟨n.toNat, h⟩
  rwa [UInt8.ofNat_toNat] at hn

/-- Bits side by side. -/
theorem or_eq_add {x y k : Nat} (h : y < 2 ^ k) : x * 2 ^ k ||| y = x * 2 ^ k + y := by
  rw [← Nat.shiftLeft_eq, Nat.shiftLeft_add_eq_or_of_lt h]

theorem sextet_first (a : UInt8) : sextet (letter (a >>> 2)) = some (a.toNat / 4) := by
  have ha := a.toNat_lt
  have hvalue : (a >>> 2).toNat = a.toNat / 4 := by simp [Nat.shiftRight_eq_div_pow]
  rw [sextet_letter _ (by omega), hvalue]

theorem sextet_second (a b : UInt8) :
    sextet (letter ((a &&& 3) <<< 4 ||| b >>> 4)) = some (a.toNat % 4 * 16 + b.toNat / 16) := by
  have hb := b.toNat_lt
  have hvalue : ((a &&& 3) <<< 4 ||| b >>> 4).toNat = a.toNat % 4 * 16 + b.toNat / 16 := by
    have hmask : a.toNat &&& 3 = a.toNat % 4 := Nat.and_two_pow_sub_one_eq_mod a.toNat 2
    have hshort : a.toNat % 4 * 16 % 256 = a.toNat % 4 * 16 := by omega
    have hsum : a.toNat % 4 * 2 ^ 4 ||| b.toNat / 16 = a.toNat % 4 * 2 ^ 4 + b.toNat / 16 := or_eq_add (by omega)
    simp only [UInt8.toNat_or, UInt8.toNat_shiftLeft, UInt8.toNat_and, UInt8.toNat_shiftRight, UInt8.reduceToNat,
      hmask, Nat.reduceMod, Nat.shiftRight_eq_div_pow, Nat.shiftLeft_eq, Nat.reducePow, hshort]
    exact hsum
  rw [sextet_letter _ (by omega), hvalue]

theorem sextet_third (b c : UInt8) :
    sextet (letter ((b &&& 15) <<< 2 ||| c >>> 6)) = some (b.toNat % 16 * 4 + c.toNat / 64) := by
  have hc := c.toNat_lt
  have hvalue : ((b &&& 15) <<< 2 ||| c >>> 6).toNat = b.toNat % 16 * 4 + c.toNat / 64 := by
    have hmask : b.toNat &&& 15 = b.toNat % 16 := Nat.and_two_pow_sub_one_eq_mod b.toNat 4
    have hshort : b.toNat % 16 * 4 % 256 = b.toNat % 16 * 4 := by omega
    have hsum : b.toNat % 16 * 2 ^ 2 ||| c.toNat / 64 = b.toNat % 16 * 2 ^ 2 + c.toNat / 64 :=
        or_eq_add (by omega)
    simp only [UInt8.toNat_or, UInt8.toNat_shiftLeft, UInt8.toNat_and, UInt8.toNat_shiftRight, UInt8.reduceToNat,
      hmask, Nat.reduceMod, Nat.shiftRight_eq_div_pow, Nat.shiftLeft_eq, Nat.reducePow, hshort]
    exact hsum
  rw [sextet_letter _ (by omega), hvalue]

theorem sextet_fourth (c : UInt8) : sextet (letter (c &&& 63)) = some (c.toNat % 64) := by
  have hvalue : (c &&& 63).toNat = c.toNat % 64 := Nat.and_two_pow_sub_one_eq_mod c.toNat 6
  rw [sextet_letter _ (by omega), hvalue]

/-- What the letters of some bytes stand for. -/
theorem decode_encode (bytes : List UInt8) : decode (encode bytes) = some bytes := by
  fun_induction encode bytes with
  | case1 a b c rest ih =>
    exact decode_three (sextet_first a) (sextet_second a b) (sextet_third b c) (sextet_fourth c) ih
  | case2 a b =>
    have hthird := sextet_third b 0
    rw [show (0 : UInt8) >>> 6 = 0 from rfl, UInt8.or_zero] at hthird
    exact decode_two (sextet_first a) (sextet_second a b) hthird
  | case3 a =>
    have hsecond := sextet_second a 0
    rw [show (0 : UInt8) >>> 4 = 0 from rfl, UInt8.or_zero] at hsecond
    exact decode_one (sextet_first a) hsecond
  | case4 => rfl

end Base64
