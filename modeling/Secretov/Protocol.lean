import Secretov.Json

/-! One request line and one reply line (protocol.hpp). -/

namespace Secretov

def kMaxRequestBytes : Nat := 1 <<< 20

def kErrNotFound : Bytes := text "not found"

def kErrInvalidToken : Bytes := text "invalid token"

structure Request where
  token : Bytes
  op : Bytes
  key : Bytes
  value : Bytes
  oldPass : Bytes
  newPass : Bytes
deriving DecidableEq

variable (json : Nlohmann)

def requestFields (j : Json) : Except Error Request := do
  return {
    token := ← (← j.atKey (text "token")).getString
    op := ← (← j.atKey (text "op")).getString
    key := ← j.valueString (text "key") []
    value := ← j.valueString (text "value") []
    oldPass := ← j.valueString (text "old") []
    newPass := ← j.valueString (text "new") [] }

/-- `parse_request`. Only a parse_error of the parser becomes nullopt. Any other
exception of it leaves the function. -/
def parseRequest (line : Bytes) : Except Error (Option Request) :=
  match json.parse line with
  | .error (.parseError _) => .ok none
  | .error e => .error e
  | .ok j =>
    if !j.isObject || !j.contains (text "token") || !j.contains (text "op") then .ok none
    else match requestFields j with
      | .ok req => .ok (some req)
      | .error _ => .ok none

def okResponse : Except Error Bytes :=
  json.dump (.object [(text "ok", .boolean true)])

def okValue (value : Bytes) : Except Error Bytes :=
  json.dump (.object [(text "ok", .boolean true), (text "value", .string value)])

def okKeys (keys : List Bytes) : Except Error Bytes :=
  json.dump (.object [(text "keys", .array (keys.map .string)), (text "ok", .boolean true)])

def okValues (values : List (Bytes × Bytes)) : Except Error Bytes :=
  json.dump (.object [(text "ok", .boolean true),
    (text "values", .object (values.map fun v => (v.1, .string v.2)))])

def errorResponse (msg : Bytes) : Except Error Bytes :=
  json.dump (.object [(text "error", .string msg), (text "ok", .boolean false)])

end Secretov
