/-!
# Hexadecimal numbers of fixed width

`Text.hexDigits` writes a number with a given count of lower-case digits, and `Text.readHex`
reads digits of either case. The two meet in `readHex_hexDigits`: a number below `16 ^ n` is read
back from its `n` digits.
-/

namespace Rendezvous.Text

/-- The lower-case digit of a value below sixteen. -/
def hexDigit (n : Nat) : Char :=
  if n < 10 then Char.ofNat ('0'.toNat + n) else Char.ofNat ('a'.toNat + (n - 10))

/-- The value of a digit of either case. -/
def hexValue? (c : Char) : Option Nat :=
  if '0' ≤ c ∧ c ≤ '9' then some (c.toNat - '0'.toNat)
  else if 'a' ≤ c ∧ c ≤ 'f' then some (c.toNat - 'a'.toNat + 10)
  else if 'A' ≤ c ∧ c ≤ 'F' then some (c.toNat - 'A'.toNat + 10)
  else none

/-- The last `n` hexadecimal digits of a number, most significant first. -/
def hexDigits : Nat → Nat → List Char
  | 0, _ => []
  | n + 1, value => hexDigits n (value / 16) ++ [hexDigit (value % 16)]

/-- The number that `digits` spell after the value `high` of what stands before them. -/
def readHexFrom (high : Nat) : List Char → Option Nat
  | [] => some high
  | c :: rest =>
    match hexValue? c with
    | some d => readHexFrom (16 * high + d) rest
    | none => none

/-- The number that `digits` spell; `none` if one of them is no digit. -/
def readHex (digits : List Char) : Option Nat := readHexFrom 0 digits

@[simp] theorem length_hexDigits (n value : Nat) : (hexDigits n value).length = n := by
  induction n generalizing value with
  | zero => rfl
  | succ n ih => simp [hexDigits, ih]

/-- Each of the sixteen digits reads as its own value. -/
theorem hexValue?_hexDigit : ∀ n : Fin 16, hexValue? (hexDigit n) = some n.val := by decide

theorem readHexFrom_append (high : Nat) (xs ys : List Char) :
    readHexFrom high (xs ++ ys) = (readHexFrom high xs).bind fun h => readHexFrom h ys := by
  induction xs generalizing high with
  | nil => rfl
  | cons c rest ih =>
    simp only [List.cons_append, readHexFrom]
    cases hexValue? c with
    | none => rfl
    | some d => exact ih (16 * high + d)

/-- The digits of a number are read as that number, up to what the digits cannot hold. -/
theorem readHexFrom_hexDigits (n high value : Nat) :
    readHexFrom high (hexDigits n value) = some (high * Nat.pow 16 n + value % Nat.pow 16 n) := by
  show _ = some (high * 16 ^ n + value % 16 ^ n)
  induction n generalizing high value with
  | zero => simp [hexDigits, readHexFrom, Nat.mod_one]
  | succ n ih =>
    have hd := hexValue?_hexDigit ⟨value % 16, Nat.mod_lt _ (by decide)⟩
    simp only at hd
    rw [hexDigits, readHexFrom_append, ih]
    simp only [Option.bind_some, readHexFrom, hd, Option.some.injEq]
    have hm : value % 16 ^ (n + 1) = value % 16 + 16 * (value / 16 % 16 ^ n) := by
      rw [Nat.pow_succ', Nat.mod_mul]
    rw [hm, Nat.pow_succ']
    have : high * (16 * 16 ^ n) = 16 * (high * 16 ^ n) := by
      rw [Nat.mul_left_comm]
    omega

/-- A number below `16 ^ n` is read back from its `n` digits. -/
theorem readHex_hexDigits {n value : Nat} (h : value < Nat.pow 16 n) :
    readHex (hexDigits n value) = some value := by
  rw [readHex, readHexFrom_hexDigits, Nat.mod_eq_of_lt h, Nat.zero_mul, Nat.zero_add]

end Rendezvous.Text
