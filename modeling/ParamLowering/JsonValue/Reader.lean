import ParamLowering.JsonValue
import ParamLowering.Number.Binary64
set_option autoImplicit false

/-!
Reading JSON text.

The reader takes the format at its word: four blanks, no comma at the end of a list, no raw
control character in a string, no half of a surrogate pair, and nothing behind the value. It
refuses numbers beyond all finite ones and values nested more than 127 deep.
-/

namespace ParamLowering.JsonValue

def isBlank (c : Char) : Bool := c == ' ' || c == '\t' || c == '\n' || c == '\r'

def skipBlanks (cs : List Char) : List Char := cs.dropWhile isBlank

/-! ### Strings -/

def hexValue? (c : Char) : Option Nat :=
  if '0' ≤ c && c ≤ '9' then some (c.toNat - '0'.toNat)
  else if 'a' ≤ c && c ≤ 'f' then some (c.toNat - 'a'.toNat + 10)
  else if 'A' ≤ c && c ≤ 'F' then some (c.toNat - 'A'.toNat + 10)
  else none

/-- Four hexadecimal digits. -/
def readUnit : List Char → Option (Nat × List Char)
  | a :: b :: c :: d :: cs => do
    let a ← hexValue? a
    let b ← hexValue? b
    let c ← hexValue? c
    let d ← hexValue? d
    some (((a * 16 + b) * 16 + c) * 16 + d, cs)
  | _ => none

/-- The character of a `\u` escape, read behind its mark; a high surrogate needs a low one. -/
def readCodePoint (cs : List Char) : Option (Char × List Char) := do
  let (unit, cs) ← readUnit cs
  if unit < 0xD800 || 0xDFFF < unit then some (Char.ofNat unit, cs)
  else if 0xDC00 ≤ unit then none
  else match cs with
    | '\\' :: 'u' :: cs => do
      let (low, cs) ← readUnit cs
      if 0xDC00 ≤ low && low ≤ 0xDFFF then
        some (Char.ofNat (0x10000 + (unit - 0xD800) * 0x400 + (low - 0xDC00)), cs)
      else none
    | _ => none

/-- The character that an escape stands for, read behind the backslash. -/
def readEscape : List Char → Option (Char × List Char)
  | '"' :: cs => some ('"', cs)
  | '\\' :: cs => some ('\\', cs)
  | '/' :: cs => some ('/', cs)
  | 'b' :: cs => some ('\x08', cs)
  | 'f' :: cs => some ('\x0c', cs)
  | 'n' :: cs => some ('\n', cs)
  | 'r' :: cs => some ('\r', cs)
  | 't' :: cs => some ('\t', cs)
  | 'u' :: cs => readCodePoint cs
  | _ => none

/-- The characters of a string behind its opening quote, at most `steps` of them. -/
def readString : Nat → List Char → Option (List Char × List Char)
  | 0, _ => none
  | _ + 1, [] => none
  | steps + 1, c :: cs =>
    if c = '"' then some ([], cs)
    else if c = '\\' then do
      let (d, cs) ← readEscape cs
      let (ds, cs) ← readString steps cs
      some (d :: ds, cs)
    else if c.toNat < 0x20 then none
    else do
      let (ds, cs) ← readString steps cs
      some (c :: ds, cs)

/-! ### Numbers -/

def isDigit (c : Char) : Bool := '0' ≤ c && c ≤ '9'

/-- The value of a list of digits. -/
def digitsValue (cs : List Char) : Nat := cs.foldl (fun n c => n * 10 + (c.toNat - '0'.toNat)) 0

/-- The digits at the start of a text. -/
def takeDigits (cs : List Char) : List Char × List Char :=
  (cs.takeWhile isDigit, cs.dropWhile isDigit)

/-- A point with digits behind it, if a point follows. -/
def readFraction (cs : List Char) : Option (List Char × List Char) :=
  match cs with
  | '.' :: cs => match takeDigits cs with
    | ([], _) => none
    | found => some found
  | cs => some ([], cs)

/-- An exponent, if one follows. -/
def readExponent (cs : List Char) : Option (Int × List Char) :=
  let digits (negative : Bool) (cs : List Char) : Option (Int × List Char) :=
    match takeDigits cs with
    | ([], _) => none
    | (ds, cs) => some (if negative then -(digitsValue ds : Int) else (digitsValue ds : Int), cs)
  match cs with
  | e :: '+' :: more => if e = 'e' || e = 'E' then digits false more else some (0, cs)
  | e :: '-' :: more => if e = 'e' || e = 'E' then digits true more else some (0, cs)
  | e :: more => if e = 'e' || e = 'E' then digits false more else some (0, cs)
  | [] => some (0, [])

/-- A number without its sign; no further digit may follow a zero in front. -/
def readMagnitude (cs : List Char) : Option (Decimal × List Char) := do
  let (whole, cs) := takeDigits cs
  if whole.isEmpty || (1 < whole.length && whole.head? == some '0') then none
  else
    let (fraction, cs) ← readFraction cs
    let (exponent, cs) ← readExponent cs
    some (⟨digitsValue (whole ++ fraction), exponent - (fraction.length : Int)⟩, cs)

/-- A number that is not beyond all finite ones, by its text. -/
def readNumber (cs : List Char) : Option (JsonValue × List Char) := do
  let (d, after) ← readMagnitude (match cs with
    | '-' :: cs => cs
    | cs => cs)
  if Binary64.ofDecimal d = .infinite then none
  else some (number (String.ofList (cs.take (cs.length - after.length))), after)

/-! ### Values -/

/-- Reads `word` as `value`. -/
def readWord (word : List Char) (value : JsonValue) (cs : List Char) :
    Option (JsonValue × List Char) :=
  if word.isPrefixOf cs then some (value, cs.drop word.length) else none

/-- Items with commas between them, up to and with a closing sign; `first` tells that none was
read before. -/
def readItems {α : Type} (close : Char) (item : List Char → Option (α × List Char)) :
    Nat → Bool → List Char → Option (List α × List Char)
  | 0, _, _ => none
  | steps + 1, first, cs =>
    let cs := skipBlanks cs
    let next (cs : List Char) : Option (List α × List Char) := do
      let (a, cs) ← item cs
      let (more, cs) ← readItems close item steps false cs
      some (a :: more, cs)
    match cs with
    | [] => none
    | c :: rest =>
      if c = close then some ([], rest)
      else if first then next cs
      else if c = ',' then next rest
      else none

/-- A name with a colon and its value. -/
def readMember {α : Type} (value : List Char → Option (α × List Char)) (cs : List Char) :
    Option ((String × α) × List Char) :=
  match skipBlanks cs with
  | '"' :: cs => do
    let (name, cs) ← readString (cs.length + 1) cs
    match skipBlanks cs with
    | ':' :: cs =>
      let (a, cs) ← value cs
      some ((String.ofList name, a), cs)
    | _ => none
  | _ => none

/-- A value that may hold lists and objects `depth - 1` deep. -/
def readValue : Nat → List Char → Option (JsonValue × List Char)
  | 0, _ => none
  | depth + 1, cs => match skipBlanks cs with
    | [] => none
    | 'n' :: cs => readWord "ull".toList null cs
    | 't' :: cs => readWord "rue".toList (bool true) cs
    | 'f' :: cs => readWord "alse".toList (bool false) cs
    | '"' :: cs => (readString (cs.length + 1) cs).map fun (ds, cs) =>
        (string (String.ofList ds), cs)
    | '[' :: cs => if depth = 0 then none else
        (readItems ']' (readValue depth) (cs.length + 1) true cs).map fun (vs, cs) => (array vs, cs)
    | '\x7b' :: cs => if depth = 0 then none else
        (readItems '\x7d' (readMember (readValue depth)) (cs.length + 1) true cs).map
          fun (ms, cs) => (object ms, cs)
    | cs => readNumber cs

/-- The deepest nesting that is read. -/
def deepest : Nat := 127

/-- Reads a text that holds one value and blanks. -/
def read? (cs : List Char) : Option JsonValue :=
  match readValue (deepest + 1) cs with
  | some (v, cs) => if (skipBlanks cs).isEmpty then some v else none
  | none => none

end ParamLowering.JsonValue
