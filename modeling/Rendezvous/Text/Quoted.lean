import Rendezvous.Text.Hex

/-!
# Quoted text

A text between double quotes with its special characters escaped, as expectations about bound
placeholders show it.
-/

namespace Rendezvous.Text

/-- Lower-case hexadecimal digits of a number without leading zeros. -/
def hexShort (n : Nat) : List Char :=
  match (hexDigits 8 n).dropWhile (· = '0') with
  | [] => ['0']
  | ds => ds

/-- One character inside quotes. -/
def quotedChar (c : Char) : List Char :=
  if c = '"' then ['\\', '"']
  else if c = '\\' then ['\\', '\\']
  else if c = '\n' then ['\\', 'n']
  else if c = '\r' then ['\\', 'r']
  else if c = '\t' then ['\\', 't']
  else if c.toNat = 0 then ['\\', '0']
  else if c.toNat < 0x20 ∨ (0x7F ≤ c.toNat ∧ c.toNat < 0xA0) then
    ['\\', 'u', '\x7b'] ++ hexShort c.toNat ++ ['\x7d']
  else [c]

/-- A text in quotes. -/
def quoted (s : String) : String :=
  String.ofList ('"' :: s.toList.flatMap quotedChar ++ ['"'])

end Rendezvous.Text
