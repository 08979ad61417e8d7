import ParamLowering.Text.HiddenTable
import ParamLowering.Text.Quoted
set_option autoImplicit false

/-!
Double-quoted text in which everything shows: the quote, the backslash and four controls are
escaped by a sign of their own, and every other character that shows nothing by its number.
-/

namespace ParamLowering.Text

/-- The hexadecimal digits of a number below `16 ^ steps`, without zeros in front. -/
def hexDigits : Nat → Nat → List Char
  | 0, _ => []
  | steps + 1, n => (if n < 16 then [] else hexDigits steps (n / 16)) ++ [hexDigit (n % 16)]

/-- Whether a character shows nothing of its own. -/
def isHidden (c : Char) : Bool := c.toNat < 0x20 || (0x7F ≤ c.toNat && HiddenTable.covers c.toNat)

/-- How a character is written between the quotes. -/
def shown (c : Char) : List Char :=
  if c = '"' then ['\\', '"']
  else if c = '\\' then ['\\', '\\']
  else if c.toNat = 0 then ['\\', '0']
  else if c = '\t' then ['\\', 't']
  else if c = '\n' then ['\\', 'n']
  else if c = '\r' then ['\\', 'r']
  else if isHidden c then ['\\', 'u', '\x7b'] ++ hexDigits 6 c.toNat ++ ['\x7d']
  else [c]

/-- A text between double quotes, with everything in it visible. -/
def visible (cs : List Char) : List Char := '"' :: (cs.flatMap shown ++ ['"'])

end ParamLowering.Text
