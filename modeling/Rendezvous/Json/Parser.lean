import Rendezvous.Json.Number
import Rendezvous.Text.Hex

/-!
# Reading JSON

- `Json.scan?` reads one value from a text and nothing after it. It only asks for the grammar:
  what stands for nothing is kept as `Json.unreadable`. Containers inside 127 others are passed
  over (`Json.skip?`), however deep they go.
- `Json.parse?` reads a value that is readable throughout.
-/

namespace Rendezvous

namespace Json

/-! ## Blanks and numbers -/

/-- Whether a character may stand between tokens. -/
def isGap (c : Char) : Bool := c = ' ' || c = '\n' || c = '\t' || c = '\r'

/-- The text from the next token on. -/
def skipGaps (cs : List Char) : List Char := cs.dropWhile isGap

/-- Digits at the start of a text; at least one. -/
def someDigits? (cs : List Char) : Option (List Char × List Char) :=
  match cs.span Char.isDigit with
  | ([], _) => none
  | (ds, rest) => some (ds, rest)

/-- The digits before the point: no zero stands before another digit. -/
def wholeDigits? (cs : List Char) : Option (List Char × List Char) :=
  match someDigits? cs with
  | some ('0' :: _ :: _, _) => none
  | r => r

/-- The digits after the point at the start of a text; none where there is no point. -/
def fraction? : List Char → Option (List Char × List Char)
  | '.' :: cs => someDigits? cs
  | cs => some ([], cs)

/-- The sign at the start of a text: whether it is a minus. -/
def sign : List Char → Bool × List Char
  | '-' :: cs => (true, cs)
  | '+' :: cs => (false, cs)
  | cs => (false, cs)

/-- The exponent at the start of a text, if there is one. -/
def exponent? : List Char → Option (Option Exponent × List Char)
  | 'e' :: cs | 'E' :: cs =>
    (someDigits? (sign cs).2).map fun r => (some ⟨(sign cs).1, r.1⟩, r.2)
  | cs => some (none, cs)

/-- A number at the start of a text. -/
def number? (cs : List Char) : Option (Json × List Char) := do
  let (negative, unsigned) := match cs with
    | '-' :: rest => (true, rest)
    | _ => (false, cs)
  let (whole, rest) ← wholeDigits? unsigned
  let (fraction, rest) ← fraction? rest
  let (exponent, rest) ← exponent? rest
  pure (Numeral.toJson ⟨negative, whole, fraction, exponent⟩, rest)

/-! ## Strings -/

/-- The character of an escape of one letter. -/
def escape? : Char → Option Char
  | '"' => some '"'
  | '\\' => some '\\'
  | '/' => some '/'
  | 'b' => some '\x08'
  | 'f' => some '\x0c'
  | 'n' => some '\n'
  | 'r' => some '\r'
  | 't' => some '\t'
  | _ => none

/-- The part of a string that has been read. -/
structure Spelled where
  /-- Its characters, last first. -/
  chars : List Char
  /-- The first half of a surrogate pair, when its second half has to come next. -/
  high : Option Nat

namespace Spelled

/-- Nothing has been read. -/
def start : Spelled := ⟨[], none⟩

/-- Adds a character, which cannot follow half a pair. -/
def addChar? (s : Spelled) (c : Char) : Option Spelled :=
  match s.high with
  | none => some { s with chars := c :: s.chars }
  | some _ => none

/-- Adds a unit of 16 bits: a character, or half of a surrogate pair. -/
def addUnit? (s : Spelled) (n : Nat) : Option Spelled :=
  match s.high with
  | some high =>
    if 0xDC00 ≤ n ∧ n < 0xE000 then
      some ⟨Char.ofNat (0x10000 + (high - 0xD800) * 0x400 + (n - 0xDC00)) :: s.chars, none⟩
    else
      none
  | none =>
    if 0xD800 ≤ n ∧ n < 0xDC00 then some { s with high := some n }
    else if 0xDC00 ≤ n ∧ n < 0xE000 then none
    else some { s with chars := Char.ofNat n :: s.chars }

/-- The string that has been read, if no half is left. -/
def finish? (s : Spelled) : Option String :=
  match s.high with
  | none => some (String.ofList s.chars.reverse)
  | some _ => none

end Spelled

/-- The rest of a string after `soFar`: what the whole string spells, if anything, and the text
after its closing quote. Once halves of pairs do not fit, `soFar` is lost and only the grammar
counts. -/
def stringFrom? (soFar : Option Spelled) : List Char → Option (Option String × List Char)
  | [] => none
  | '"' :: rest => some (soFar.bind Spelled.finish?, rest)
  | '\\' :: 'u' :: a :: b :: c :: d :: rest =>
    match Text.readHex [a, b, c, d] with
    | some n => stringFrom? (soFar.bind (·.addUnit? n)) rest
    | none => none
  | '\\' :: letter :: rest =>
    match escape? letter with
    | some c => stringFrom? (soFar.bind (·.addChar? c)) rest
    | none => none
  | c :: rest =>
    if c.toNat < 0x20 ∨ c = '\\' then none else stringFrom? (soFar.bind (·.addChar? c)) rest

/-- A string at the start of a text. -/
def string? : List Char → Option (Option String × List Char)
  | '"' :: rest => stringFrom? (some .start) rest
  | _ => none

/-! ## Scalars -/

/-- A value that is no container, at the start of a text. -/
def scalar? : List Char → Option (Json × List Char)
  | 'n' :: 'u' :: 'l' :: 'l' :: rest => some (.null, rest)
  | 't' :: 'r' :: 'u' :: 'e' :: rest => some (.bool true, rest)
  | 'f' :: 'a' :: 'l' :: 's' :: 'e' :: rest => some (.bool false, rest)
  | '"' :: rest =>
    (stringFrom? (some .start) rest).map fun r => (r.1.elim .unreadable .str, r.2)
  | cs => number? cs

/-! ## Passing over a value -/

/-- A container that is open while a value is passed over. -/
inductive Open where
  | array | object
deriving DecidableEq

/-- What comes next while a value is passed over. -/
inductive Awaited where
  /-- A value. -/
  | value
  /-- The name of a member. -/
  | name
  /-- What follows a value: a comma or the end of its container. -/
  | next
deriving DecidableEq

/-- The text after a value, given the containers that are open, the innermost first. Every call
uses up some of the `fuel`. -/
def skipFrom? : (fuel : Nat) → Awaited → List Open → List Char → Option (List Char)
  | 0, _, _, _ => none
  | fuel + 1, awaited, opened, cs =>
    match awaited, opened, skipGaps cs with
    | .value, _, '[' :: rest =>
      match skipGaps rest with
      | ']' :: rest => skipFrom? fuel .next opened rest
      | rest => skipFrom? fuel .value (.array :: opened) rest
    | .value, _, '\x7b' :: rest =>
      match skipGaps rest with
      | '\x7d' :: rest => skipFrom? fuel .next opened rest
      | rest => skipFrom? fuel .name (.object :: opened) rest
    | .value, _, cs =>
      match scalar? cs with
      | some (_, rest) => skipFrom? fuel .next opened rest
      | none => none
    | .name, _, cs =>
      match string? cs with
      | some (_, rest) =>
        match skipGaps rest with
        | ':' :: rest => skipFrom? fuel .value opened rest
        | _ => none
      | none => none
    | .next, [], cs => some cs
    | .next, .array :: _, ',' :: rest => skipFrom? fuel .value opened rest
    | .next, .array :: outer, ']' :: rest => skipFrom? fuel .next outer rest
    | .next, .object :: _, ',' :: rest => skipFrom? fuel .name opened rest
    | .next, .object :: outer, '\x7d' :: rest => skipFrom? fuel .next outer rest
    | .next, _, _ => none

/-- The text after a value that is passed over. -/
def skip? (fuel : Nat) (cs : List Char) : Option (List Char) := skipFrom? fuel .value [] cs

/-! ## Values -/

/-- The object with these members, last first, if all their names could be read. -/
def ofMembers : Option (List (String × Json)) → Json
  | some members => .obj members.reverse
  | none => .unreadable

mutual

/-- A value at the start of a text. Every call uses up some of the `fuel`, and entering a
container some of the `depth`. -/
def valueFrom? : (fuel depth : Nat) → List Char → Option (Json × List Char)
  | 0, _, _ => none
  | fuel + 1, depth, cs =>
    match depth, skipGaps cs with
    | 0, '[' :: rest => (skip? fuel ('[' :: rest)).map fun rest => (.unreadable, rest)
    | 0, '\x7b' :: rest => (skip? fuel ('\x7b' :: rest)).map fun rest => (.unreadable, rest)
    | depth + 1, '[' :: rest =>
      match skipGaps rest with
      | ']' :: rest => some (.arr [], rest)
      | rest => itemsFrom? fuel depth [] rest
    | depth + 1, '\x7b' :: rest =>
      match skipGaps rest with
      | '\x7d' :: rest => some (.obj [], rest)
      | rest => membersFrom? fuel depth (some []) rest
    | _, rest => scalar? rest

/-- The rest of an array that has another item; `done` holds the items read, last first. -/
def itemsFrom? : (fuel depth : Nat) → List Json → List Char → Option (Json × List Char)
  | 0, _, _, _ => none
  | fuel + 1, depth, done, cs =>
    match valueFrom? fuel depth cs with
    | none => none
    | some (j, rest) =>
      match skipGaps rest with
      | ',' :: rest => itemsFrom? fuel depth (j :: done) rest
      | ']' :: rest => some (.arr (j :: done).reverse, rest)
      | _ => none

/-- The rest of an object that has another member; `done` holds the members read, last first, as
long as all their names could be read. -/
def membersFrom? :
    (fuel depth : Nat) → Option (List (String × Json)) → List Char → Option (Json × List Char)
  | 0, _, _, _ => none
  | fuel + 1, depth, done, cs =>
    match string? (skipGaps cs) with
    | none => none
    | some (name, rest) =>
      match skipGaps rest with
      | ':' :: rest =>
        match valueFrom? fuel depth rest with
        | none => none
        | some (j, rest) =>
          let done := done.bind fun members => name.map fun name => (name, j) :: members
          match skipGaps rest with
          | ',' :: rest => membersFrom? fuel depth done rest
          | '\x7d' :: rest => some (ofMembers done, rest)
          | _ => none
      | _ => none

end

/-- How deep containers may be nested to be read. -/
def maxDepth : Nat := 127

/-- The value that a text spells, readable or not. At most two calls are made for each
character. -/
def scan? (s : String) : Option Json :=
  let cs := s.toList
  match valueFrom? (2 * cs.length + 2) maxDepth cs with
  | some (j, rest) => if (skipGaps rest).isEmpty then some j else none
  | none => none

/-- The value that a text stands for. -/
def parse? (s : String) : Option Json := (scan? s).filter isReadable

end Json

end Rendezvous
