import Secretov.Bytes

/-! YAML trees and the part of yaml-cpp that the program calls. The parser is
third-party code and stays a parameter. -/

namespace Secretov

inductive Yaml where
  | null
  | scalar (s : Bytes)
  | sequence (items : List Yaml)
  | map (pairs : List (Yaml × Yaml))

namespace Yaml

def isNull : Yaml → Bool
  | null => true
  | _ => false

def isScalar : Yaml → Bool
  | scalar _ => true
  | _ => false

def isMap : Yaml → Bool
  | map _ => true
  | _ => false

def pairs : Yaml → List (Yaml × Yaml)
  | map pairs => pairs
  | _ => []

def isKey (key : Bytes) : Yaml → Bool
  | scalar s => s = key
  | _ => false

/-- `node[key]`: the value of the first scalar key that is equal. -/
def find? (node : Yaml) (key : Bytes) : Option Yaml :=
  (node.pairs.find? (·.1.isKey key)).map (·.2)

theorem isNull_iff {node : Yaml} : node.isNull = true ↔ node = .null := by
  cases node <;> simp [isNull]

end Yaml

/-- A throw of the manifest parser: std::runtime_error, or a YAML::Exception. -/
inductive Thrown where
  | runtimeError (what : Bytes)
  | yaml (what : Bytes)
deriving DecidableEq

/-- `YAML::Load`, and the text of the exception for a node that is no string. -/
structure YamlCpp where
  load : Bytes → Except Bytes Yaml
  badConversion : Yaml → Bytes

def YamlCpp.asString (yaml : YamlCpp) : Yaml → Except Thrown Bytes
  | .scalar s => .ok s
  | .null => .ok (text "null")
  | node => .error (.yaml (yaml.badConversion node))

theorem YamlCpp.asString_of_isScalar {yaml : YamlCpp} {node : Yaml} {s : Bytes} (hnode : node.isScalar = true)
    (h : yaml.asString node = .ok s) : node = .scalar s := by
  cases node with
  | scalar t => rw [Except.ok.inj h]
  | null | sequence | map => simp [Yaml.isScalar] at hnode

theorem YamlCpp.asString_eq_ok {yaml : YamlCpp} {node : Yaml} {s : Bytes} (h : yaml.asString node = .ok s) :
    node = .scalar s ∨ node = .null ∧ s = text "null" := by
  cases node with
  | scalar t => exact Or.inl (by rw [Except.ok.inj h])
  | null => exact Or.inr ⟨rfl, (Except.ok.inj h).symm⟩
  | sequence | map => cases h

end Secretov
