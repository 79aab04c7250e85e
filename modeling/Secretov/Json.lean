import Secretov.Bytes

/-! JSON values and the part of nlohmann::json that the program calls. The
parser and the printer are third-party code and stay parameters. -/

namespace Secretov

/-- The exceptions of the program: std::runtime_error and those of nlohmann::json. -/
inductive Error where
  | runtimeError (what : Bytes)
  | parseError (what : Bytes)
  | outOfRange (what : Bytes)
  | typeError (what : Bytes)
deriving DecidableEq

def Error.what : Error → Bytes
  | runtimeError what => what
  | parseError what => what
  | outOfRange what => what
  | typeError what => what

inductive Json where
  | null
  | boolean (b : Bool)
  | number (literal : Bytes)
  | string (s : Bytes)
  | array (items : List Json)
  | object (members : List (Bytes × Json))

namespace Json

def typeName : Json → Bytes
  | null => text "null"
  | boolean _ => text "boolean"
  | number _ => text "number"
  | string _ => text "string"
  | array _ => text "array"
  | object _ => text "object"

def isObject : Json → Bool
  | object _ => true
  | _ => false

def find? : Json → Bytes → Option Json
  | object members, key => members.lookup key
  | _, _ => none

def contains (j : Json) (key : Bytes) : Bool :=
  (j.find? key).isSome

/-- `get<std::string>()`. -/
def getString : Json → Except Error Bytes
  | string s => .ok s
  | j => .error (.typeError (text "[json.exception.type_error.302] type must be string, but is " ++ j.typeName))

/-- `at(key)`. -/
def atKey (j : Json) (key : Bytes) : Except Error Json :=
  match j with
  | object members => match members.lookup key with
    | some member => .ok member
    | none => .error (.outOfRange (text "[json.exception.out_of_range.403] key '" ++ key ++ text "' not found"))
  | _ => .error (.typeError (text "[json.exception.type_error.304] cannot use at() with " ++ j.typeName))

/-- `value(key, default)` with a string default. -/
def valueString (j : Json) (key default : Bytes) : Except Error Bytes :=
  match j with
  | object members => match members.lookup key with
    | some member => member.getString
    | none => .ok default
  | _ => .error (.typeError (text "[json.exception.type_error.306] cannot use value() with " ++ j.typeName))

end Json

/-- `nlohmann::json::parse` and `dump`. -/
structure Nlohmann where
  parse : Bytes → Except Error Json
  dump : Json → Except Error Bytes

def Nlohmann.ParseUndoesDump (json : Nlohmann) : Prop :=
  ∀ j b, json.dump j = .ok b → json.parse b = .ok j

/-- `dump` escapes every newline. -/
def Nlohmann.DumpsOneLine (json : Nlohmann) : Prop :=
  ∀ j b, json.dump j = .ok b → newline ∉ b

abbrev FlatFields := List (Bytes × (Bytes ⊕ Bool))

def Json.ofFlat (fields : FlatFields) : Json :=
  .object (fields.map fun field => (field.1, field.2.elim .string .boolean))

def flatMembers : List (Bytes × Json) → Option FlatFields
  | [] => some []
  | (key, .string s) :: members => (flatMembers members).map ((key, .inl s) :: ·)
  | (key, .boolean b) :: members => (flatMembers members).map ((key, .inr b) :: ·)
  | _ :: _ => none

theorem flatMembers_eq_some {members : List (Bytes × Json)} {fields : FlatFields}
    (h : flatMembers members = some fields) : Json.object members = .ofFlat fields := by
  fun_induction flatMembers members generalizing fields with
  | case1 => cases h; rfl
  | case2 key s members ih =>
    obtain ⟨rest, hrest, rfl⟩ := Option.map_eq_some_iff.mp h
    simpa [Json.ofFlat] using ih hrest
  | case3 key b members ih =>
    obtain ⟨rest, hrest, rfl⟩ := Option.map_eq_some_iff.mp h
    simpa [Json.ofFlat] using ih hrest
  | case4 => simp at h

/-- A parser and printer that know a table of texts of flat objects. -/
def tableJson (table : List (Bytes × FlatFields)) : Nlohmann where
  parse b := match table.lookup b with
    | some fields => .ok (.ofFlat fields)
    | none => .error (.parseError [])
  dump j := match j with
    | .object members =>
      match table.find? fun entry =>
        flatMembers members = some entry.2 ∧ table.lookup entry.1 = some entry.2 with
      | some entry => .ok entry.1
      | none => .error (.typeError [])
    | _ => .error (.typeError [])

theorem tableJson_parseUndoesDump (table : List (Bytes × FlatFields)) :
    (tableJson table).ParseUndoesDump := by
  intro j b hd
  cases j with
  | object members =>
    simp only [tableJson] at hd ⊢
    split at hd
    · rename_i entry hf
      have hentry := List.find?_some hf
      rw [decide_eq_true_iff] at hentry
      obtain ⟨hflat, hlookup⟩ := hentry
      obtain rfl : entry.1 = b := Except.ok.inj hd
      rw [hlookup, flatMembers_eq_some hflat]
    · cases hd
  | _ => simp [tableJson] at hd

theorem tableJson_dumpsOneLine {table : List (Bytes × FlatFields)} (h : ∀ entry ∈ table, newline ∉ entry.1) :
    (tableJson table).DumpsOneLine := by
  intro j b hd
  cases j with
  | object members =>
    simp only [tableJson] at hd
    split at hd
    · rename_i entry hf
      obtain rfl : entry.1 = b := Except.ok.inj hd
      exact h entry (List.mem_of_find?_eq_some hf)
    · cases hd
  | _ => simp [tableJson] at hd

/-! Equality of JSON values is decidable, so that a table may hold any. -/

mutual

def Json.same : Json → Json → Bool
  | .null, .null => true
  | .boolean a, .boolean b => a == b
  | .number a, .number b => a == b
  | .string a, .string b => a == b
  | .array as, .array bs => sameItems as bs
  | .object as, .object bs => sameMembers as bs
  | _, _ => false

def sameItems : List Json → List Json → Bool
  | [], [] => true
  | a :: as, b :: bs => a.same b && sameItems as bs
  | _, _ => false

def sameMembers : List (Bytes × Json) → List (Bytes × Json) → Bool
  | [], [] => true
  | (k, a) :: as, (l, b) :: bs => k == l && a.same b && sameMembers as bs
  | _, _ => false

end

mutual

theorem Json.eq_of_same {a b : Json} (h : a.same b = true) : a = b := by
  cases a <;> cases b <;> simp_all [Json.same]
  · exact eq_of_sameItems h
  · exact eq_of_sameMembers h

theorem eq_of_sameItems {as bs : List Json} (h : sameItems as bs = true) : as = bs := by
  cases as <;> cases bs <;> simp_all [sameItems]
  exact ⟨Json.eq_of_same h.1, eq_of_sameItems h.2⟩

theorem eq_of_sameMembers {as bs : List (Bytes × Json)} (h : sameMembers as bs = true) : as = bs := by
  match as, bs with
  | [], [] => rfl
  | (k, a) :: as, (l, b) :: bs =>
    simp only [sameMembers, Bool.and_eq_true, beq_iff_eq] at h
    obtain ⟨⟨rfl, ha⟩, has⟩ := h
    rw [Json.eq_of_same ha, eq_of_sameMembers has]

end

mutual

theorem Json.same_self : ∀ a : Json, a.same a = true
  | .null => rfl
  | .boolean _ | .number _ | .string _ => by simp [Json.same]
  | .array items => sameItems_self items
  | .object members => sameMembers_self members

theorem sameItems_self : ∀ items, sameItems items items = true
  | [] => rfl
  | a :: as => by simp [sameItems, Json.same_self a, sameItems_self as]

theorem sameMembers_self : ∀ members, sameMembers members members = true
  | [] => rfl
  | (k, a) :: as => by simp [sameMembers, Json.same_self a, sameMembers_self as]

end

instance : DecidableEq Json := fun a b =>
  decidable_of_iff (a.same b = true) ⟨Json.eq_of_same, fun h => h ▸ a.same_self⟩

/-- A parser and printer that know a table of texts. -/
def tableOf (table : List (Bytes × Json)) : Nlohmann where
  parse b := match table.lookup b with
    | some j => .ok j
    | none => .error (.parseError [])
  dump j := match table.find? fun entry => entry.2 = j ∧ table.lookup entry.1 = some entry.2 with
    | some entry => .ok entry.1
    | none => .error (.typeError [])

theorem tableOf_dump {table : List (Bytes × Json)} {j : Json} {b : Bytes} (h : (tableOf table).dump j = .ok b) :
    (b, j) ∈ table ∧ table.lookup b = some j := by
  simp only [tableOf] at h
  split at h
  · rename_i entry hf
    have hentry := List.find?_some hf
    have hmem := List.mem_of_find?_eq_some hf
    rw [decide_eq_true_iff] at hentry
    obtain ⟨rfl, hlookup⟩ := hentry
    obtain rfl := Except.ok.inj h
    exact ⟨hmem, hlookup⟩
  · cases h

theorem tableOf_parseUndoesDump (table : List (Bytes × Json)) : (tableOf table).ParseUndoesDump := by
  intro j b h
  simp only [tableOf, (tableOf_dump h).2]

end Secretov
