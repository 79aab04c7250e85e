import Mathlib.Data.List.Basic

/-! Strings of the program. A `std::string` holds bytes, valid UTF-8 or not. -/

namespace Secretov

abbrev Bytes := List UInt8

instance : LawfulBEq Bytes := inferInstance

/-- An ASCII literal of the source. -/
def text (s : String) : Bytes :=
  s.toList.map (fun c => UInt8.ofNat c.toNat)

def newline : UInt8 := 10

def slash : UInt8 := 47

def decimal (n : Nat) : Bytes :=
  text (toString n)

end Secretov
