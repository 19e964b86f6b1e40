import Rendezvous.Text.Hex

/-!
# Ids

Processes, channels, pools, type nodes and declarations are named by ids: numbers of 128 bits,
written as 32 hexadecimal digits in five groups. Messages show the first eight digits only.

- `Id.text` writes an id in full and `Id.short` shortens it for messages;
- `Id.ofText?` reads the four accepted spellings;
- `Supply` hands out ids, each larger than all before it, and `Fresh` bundles the three new ids
  a single step can need.
-/

namespace Rendezvous

/-- The name of one entity. -/
structure Id where
  /-- The number an id stands for. Ids read from text are below `2 ^ 128`. -/
  value : Nat
deriving DecidableEq, Inhabited

namespace Id

/-- The 32 digits of an id. -/
def digits (id : Id) : List Char := Text.hexDigits 32 id.value

/-- Writes digits in groups of 8, 4, 4, 4 and 12. -/
def grouped (ds : List Char) : List Char :=
  ds.take 8 ++ '-' :: (ds.drop 8).take 4 ++ '-' :: (ds.drop 12).take 4 ++
    '-' :: (ds.drop 16).take 4 ++ '-' :: ds.drop 20

/-- An id in full: lower case, with hyphens between the groups. -/
def text (id : Id) : String := String.ofList (grouped id.digits)

/-- The first eight digits, which is how messages show an id. -/
def short (id : Id) : String := String.ofList (id.digits.take 8)

/-- Reads exactly 32 digits. -/
def ofDigits? (ds : List Char) : Option Id :=
  if ds.length = 32 then (Text.readHex ds).map Id.mk else none

/-- Reads the grouped form: 36 characters with hyphens in the four places between groups. -/
def ofGrouped? (cs : List Char) : Option Id :=
  if cs.length = 36 ∧ cs[8]? = some '-' ∧ cs[13]? = some '-' ∧ cs[18]? = some '-' ∧
      cs[23]? = some '-' then
    ofDigits? (cs.take 8 ++ (cs.drop 9).take 4 ++ (cs.drop 14).take 4 ++
      (cs.drop 19).take 4 ++ cs.drop 24)
  else
    none

/-- What stands before the groups in the resource-name spelling. -/
def urnMark : List Char := ['u', 'r', 'n', ':', 'u', 'u', 'i', 'd', ':']

/-- Reads an id: 32 plain digits, the grouped form, the grouped form in braces, or the grouped
form after `urn:uuid:`. All letters may be of either case. -/
def ofText? (s : String) : Option Id :=
  let cs := s.toList
  if cs.length = 32 then
    ofDigits? cs
  else if cs.length = 36 then
    ofGrouped? cs
  else if cs.length = 38 ∧ cs.head? = some '\x7b' ∧ cs.getLast? = some '\x7d' then
    ofGrouped? ((cs.drop 1).take 36)
  else if cs.length = 45 ∧ (cs.take 9).map Char.toLower = urnMark then
    ofGrouped? (cs.drop 9)
  else
    none

@[simp] theorem length_digits (id : Id) : id.digits.length = 32 :=
  Text.length_hexDigits 32 id.value

end Id

/-- A source of ids: the number of the next id it hands out. -/
structure Supply where
  next : Nat
deriving DecidableEq, Inhabited

namespace Supply

/-- The distance between one id and the next. Consecutive ids differ in their first eight
digits, so their abbreviations differ too. -/
def stride : Nat := 1 <<< 96

/-- The id handed out next. -/
def id (s : Supply) : Id := ⟨s.next⟩

/-- The supply after one id. -/
def rest (s : Supply) : Supply := ⟨s.next + stride⟩

theorem next_lt_next_rest (s : Supply) : s.next < s.rest.next :=
  Nat.lt_add_of_pos_right (by decide)

end Supply

/-- The ids that a supply hands out one after the other if it starts at zero. -/
def Id.nth (n : Nat) : Id := ⟨n * Supply.stride⟩

/-- The new ids one step may need: at most one channel, one process and one pool. -/
structure Fresh where
  channel : Id
  process : Id
  pool : Id
deriving DecidableEq, Inhabited

/-- The next three ids, one for each role. -/
def Supply.fresh (s : Supply) : Fresh := ⟨s.id, s.rest.id, s.rest.rest.id⟩

/-- The supply after the ids of one step. -/
def Supply.afterFresh (s : Supply) : Supply := s.rest.rest.rest

end Rendezvous
