/-!
# Blanks

The characters that separate tokens and that do not count as content: the 25 code points with the
Unicode property `White_Space`.
-/

namespace ExplicitOde

/-- The ranges of code points with the property `White_Space`, in order. -/
def blankRanges : List (Nat × Nat) :=
  [(0x09, 0x0D), (0x20, 0x20), (0x85, 0x85), (0xA0, 0xA0), (0x1680, 0x1680), (0x2000, 0x200A),
    (0x2028, 0x2029), (0x202F, 0x202F), (0x205F, 0x205F), (0x3000, 0x3000)]

/-- The character separates tokens. -/
def isBlank (c : Char) : Bool :=
  blankRanges.any fun (low, high) => low ≤ c.toNat && c.toNat ≤ high

/-- The text has no character but blanks. -/
def allBlank (text : String) : Bool :=
  text.toList.all isBlank

end ExplicitOde
