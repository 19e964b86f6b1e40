/-!
# Blank characters

The characters with the Unicode property White_Space: what counts as blank when a part of a
qualified name is tested for content.
-/

namespace Rendezvous.Text

/-- The ranges of code points with the property White_Space, both ends included, in order. -/
def blankRanges : List (Nat × Nat) :=
  [(0x0009, 0x000D), (0x0020, 0x0020), (0x0085, 0x0085), (0x00A0, 0x00A0), (0x1680, 0x1680),
   (0x2000, 0x200A), (0x2028, 0x2029), (0x202F, 0x202F), (0x205F, 0x205F), (0x3000, 0x3000)]

/-- Whether `c` is white space. -/
def isBlank (c : Char) : Bool :=
  blankRanges.any fun r => r.1 ≤ c.toNat && c.toNat ≤ r.2

/-- Whether some character is not blank. -/
def hasContent (cs : List Char) : Bool := cs.any fun c => !isBlank c

end Rendezvous.Text
