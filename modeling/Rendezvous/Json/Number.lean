import Rendezvous.Json.Basic

/-!
# Numbers in JSON

A number is spelled as a `Numeral`: digits, perhaps a fraction, perhaps an exponent. Without
fraction and exponent it is an integer if it fits in 64 bits; minus zero is none. Every other
numeral is held in double precision, and one that is too large for it stands for nothing
(`Numeral.toJson`).

How large is too large is decided by one multiplication of doubles: the leading digits, as many as
fit in 64 bits, times a power of ten. `roundToDouble` is what double precision does to a natural
number, so the product is computed in exact arithmetic and rounded (`Numeral.fitsDouble`).
-/

namespace Rendezvous

/-! ## Double precision -/

/-- The natural number with 53 significant binary digits that is nearest to `n`; of two that are
equally near, the one whose last of these digits is 0. -/
def roundToDouble (n : Nat) : Nat :=
  let unit := 1 <<< (n.log2 - 52)
  let low := n / unit * unit
  let rest := n % unit
  if unit < 2 * rest ∨ (unit = 2 * rest ∧ n / unit % 2 = 1) then low + unit else low

/-- The first power of two that double precision cannot hold. -/
def doubleLimit : Nat := 1 <<< 1024

/-- The largest power of ten that double precision can hold has this exponent. -/
def doubleScale : Nat := 308

/-! ## Numerals -/

/-- The value of a decimal digit. -/
def digitValue (d : Char) : Nat := d.toNat - '0'.toNat

/-- The value of a row of decimal digits. -/
def digitsValue (ds : List Char) : Nat := ds.foldl (fun n d => 10 * n + digitValue d) 0

/-- An exponent: its sign and its digits. -/
structure Exponent where
  negative : Bool
  digits : List Char
deriving DecidableEq

/-- The number an exponent stands for. -/
def Exponent.value (e : Exponent) : Int :=
  if e.negative then -(digitsValue e.digits : Int) else digitsValue e.digits

/-- A spelled number. -/
structure Numeral where
  negative : Bool
  /-- The digits before the point. -/
  whole : List Char
  /-- The digits after the point; none without a point. -/
  fraction : List Char
  exponent : Option Exponent
deriving DecidableEq

/-- Appends digits to `n` while the number stays below `2 ^ 64`: the number, and the digits that
were left. -/
def appendDigits (n : Nat) : List Char → Nat × List Char
  | [] => (n, [])
  | d :: rest =>
    if 10 * n + digitValue d < UInt64.size then appendDigits (10 * n + digitValue d) rest
    else (n, d :: rest)

namespace Numeral

/-- Whether a numeral has neither fraction nor exponent. -/
def isInteger (x : Numeral) : Bool := x.fraction.isEmpty && x.exponent.isNone

/-- A numeral without its sign as leading digits and a power of ten. -/
def scaled (x : Numeral) : Nat × Int :=
  let whole := appendDigits 0 x.whole
  let all := appendDigits whole.1 x.fraction
  let places : Int := (x.fraction.length : Int) - all.2.length
  (all.1, whole.2.length - places + (x.exponent.map Exponent.value).getD 0)

/-- Whether double precision can hold a numeral. -/
def fitsDouble (x : Numeral) : Bool :=
  let (digits, scale) := x.scaled
  digits = 0 || scale < 0 ||
    (scale ≤ doubleScale &&
      roundToDouble (roundToDouble digits * roundToDouble (Nat.pow 10 scale.toNat)) < doubleLimit)

/-- The spelling of a numeral. -/
def text (x : Numeral) : String :=
  String.ofList
    ((if x.negative then ['-'] else []) ++ x.whole ++
      (if x.fraction.isEmpty then [] else '.' :: x.fraction) ++
      match x.exponent with
      | some e => 'e' :: (if e.negative then ['-'] else []) ++ e.digits
      | none => [])

/-- The value of a numeral. -/
def toJson (x : Numeral) : Json :=
  let n := digitsValue x.whole
  if x.isInteger && !x.negative && n < UInt64.size then .int n
  else if x.isInteger && x.negative && 0 < n && n ≤ UInt64.size / 2 then .int (-(n : Int))
  else if x.fitsDouble then .real x.text
  else .unreadable

end Numeral

end Rendezvous
