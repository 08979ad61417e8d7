set_option autoImplicit false

/-!
White space as Unicode's property White_Space has it, and texts without it at one end. The
property holds the line and paragraph separators and every blank, but not U+FEFF.
-/

namespace ParamLowering.Text

/-- Whether a character has the property White_Space. -/
def isBlank (c : Char) : Bool :=
  let n := c.toNat
  (0x09 ≤ n && n ≤ 0x0D) || n == 0x20 || n == 0x85 || n == 0xA0 || n == 0x1680
    || (0x2000 ≤ n && n ≤ 0x200A) || n == 0x2028 || n == 0x2029 || n == 0x202F || n == 0x205F
    || n == 0x3000

/-- The blanks at the end of a text. -/
def trailingBlanks (cs : List Char) : List Char := (cs.reverse.takeWhile isBlank).reverse

/-- The blanks at the start of a text. -/
def leadingBlanks (cs : List Char) : List Char := cs.takeWhile isBlank

/-- The text after the blanks at its start. -/
def dropBlanks (cs : List Char) : List Char := cs.dropWhile isBlank

end ParamLowering.Text
