import Rendezvous.Json.Basic
import Rendezvous.Text.Hex

/-!
# Writing JSON

`Json.text` writes a value on one line, without blanks between tokens. What cannot be read is
written as `null`.
-/

namespace Rendezvous

namespace Json

/-- One character inside a string. -/
def escaped (c : Char) : List Char :=
  if c = '"' then ['\\', '"']
  else if c = '\\' then ['\\', '\\']
  else if c = '\n' then ['\\', 'n']
  else if c = '\r' then ['\\', 'r']
  else if c = '\t' then ['\\', 't']
  else if c.toNat < 0x20 ∨ c.toNat = 0x7F then '\\' :: 'u' :: Text.hexDigits 4 c.toNat
  else [c]

/-- A string with its quotes. -/
def stringText (s : String) : String :=
  "\"" ++ String.ofList (s.toList.flatMap escaped) ++ "\""

mutual

/-- A value on one line. -/
def text : Json → String
  | .null => "null"
  | .bool true => "true"
  | .bool false => "false"
  | .int n => toString n
  | .real spelling => spelling
  | .str s => stringText s
  | .arr items => "[" ++ ",".intercalate (itemTexts items) ++ "]"
  | .obj members => "\x7b" ++ ",".intercalate (memberTexts members) ++ "\x7d"
  | .unreadable => "null"

/-- The items of an array. -/
def itemTexts : List Json → List String
  | [] => []
  | j :: rest => j.text :: itemTexts rest

/-- The members of an object. -/
def memberTexts : List (String × Json) → List String
  | [] => []
  | (name, j) :: rest => (stringText name ++ ":" ++ j.text) :: memberTexts rest

end

end Json

end Rendezvous
