import Rendezvous.Text.Blank

/-!
# Names and revisions

- `Sym`: a placeholder or a label, any text;
- `QualName`: a dotted name such as `bank.account`; that every part between dots has content is
  part of the type;
- `Rev`: a revision number, and the signed stamps made of it.
-/

namespace Rendezvous

/-- A placeholder or a label. -/
abbrev Sym := String

/-- The parts of a text between its dots. -/
def dotParts : List Char → List (List Char)
  | [] => [[]]
  | c :: rest =>
    if c = '.' then
      [] :: dotParts rest
    else
      match dotParts rest with
      | [] => [[c]]
      | part :: parts => (c :: part) :: parts

/-- Whether every part between dots has a character that is not blank. -/
def isQualified (text : String) : Bool := (dotParts text.toList).all Text.hasContent

/-- A dotted name. It is kept as written. -/
structure QualName where
  text : String
  /-- No part is blank. -/
  qualified : isQualified text = true
deriving DecidableEq

namespace QualName

/-- The name written as `text`, if it is one. -/
def parse? (text : String) : Option QualName :=
  if h : isQualified text = true then some ⟨text, h⟩ else none

/-- What is said about a text that is no qualified name. -/
def complaint (text : String) : String := "`" ++ text ++ "` is not a valid qualified name"

@[simp] theorem parse?_text (name : QualName) : parse? name.text = some name := by
  simp [parse?, name.qualified]

end QualName

/-- A revision. Declarations and pools start at revision 1. -/
structure Rev where
  value : Nat
deriving DecidableEq, Inhabited

namespace Rev

/-- Where everything starts. -/
def initial : Rev := ⟨1⟩

/-- The revision after this one. -/
def next (r : Rev) : Rev := ⟨r.value + 1⟩

/-- The stamp of an introduction: the revision in two's complement of 64 bits. -/
def introStamp (r : Rev) : Int := (r.value : Int).bmod UInt64.size

/-- The stamp of a consumption: an introduction's stamp with the sign turned. -/
def consumeStamp (r : Rev) : Int := -r.introStamp

/-- How messages show a revision. -/
def text (r : Rev) : String := "r" ++ toString r.value

/-- Below `2 ^ 63` a revision is its own stamp. -/
theorem introStamp_of_lt {r : Rev} (h : r.value < UInt64.size / 2) : r.introStamp = r.value := by
  unfold introStamp
  rw [Int.bmod_eq_of_le] <;> omega

end Rev

end Rendezvous
