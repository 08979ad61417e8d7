import ParamLowering.Text.IdentifierTable
set_option autoImplicit false

/-! The character classes of the script language. -/

namespace ParamLowering.Grammar

/-- The characters that end a line and with it, where needed, a statement. -/
def isLineBreak (c : Char) : Bool :=
  c == '\n' || c == '\r' || c.toNat == 0x2028 || c.toNat == 0x2029

/-- The blanks between tokens; they take in U+FEFF. -/
def isSpace (c : Char) : Bool :=
  let n := c.toNat
  n == 0x20 || n == 0x09 || n == 0x0B || n == 0x0C || n == 0xA0 || n == 0xFEFF || n == 0x1680
    || (0x2000 ≤ n && n ≤ 0x200A) || n == 0x202F || n == 0x205F || n == 0x3000

def isDigit (c : Char) : Bool := '0' ≤ c && c ≤ '9'

def isAsciiLetter (c : Char) : Bool := ('a' ≤ c && c ≤ 'z') || ('A' ≤ c && c ≤ 'Z')

def isIdentifierStart (c : Char) : Bool :=
  isAsciiLetter c || c == '_' || c == '$' ||
    (0x80 ≤ c.toNat && Text.IdentifierTable.covers Text.IdentifierTable.startRanges c.toNat)

def isIdentifierPart (c : Char) : Bool :=
  isDigit c || isIdentifierStart c ||
    (0x80 ≤ c.toNat && Text.IdentifierTable.covers Text.IdentifierTable.laterRanges c.toNat)

/-- The value of a digit in a base up to sixteen. -/
def digitValue? (base : Nat) (c : Char) : Option Nat :=
  let n :=
    if isDigit c then c.toNat - '0'.toNat
    else if 'a' ≤ c && c ≤ 'f' then c.toNat - 'a'.toNat + 10
    else if 'A' ≤ c && c ≤ 'F' then c.toNat - 'A'.toNat + 10
    else base
  if n < base then some n else none

end ParamLowering.Grammar
