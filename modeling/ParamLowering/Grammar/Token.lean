import ParamLowering.Grammar.Character
import ParamLowering.Number.Binary64
set_option autoImplicit false

/-!
Tokens of the script language, and the cursor that steps over them.

The cursor keeps the text from its token on, because only the grammar knows whether a slash
divides or opens a regular expression, and whether text belongs to a template or to a markup
element. Such pieces are read from the characters, and the cursor is set behind them.
-/

namespace ParamLowering.Grammar

/-- A place in the source: the text from there on and its byte offset. -/
structure Place where
  rest : List Char
  offset : Nat

namespace Place

/-- The place behind `n` ASCII characters. -/
def skip (p : Place) (n : Nat) : Place := ⟨p.rest.drop n, p.offset + n⟩

end Place

inductive Token where
  /-- A name or keyword, and whether it was written with an escape. -/
  | word (name : String) (escaped : Bool)
  /-- A name behind `#`. -/
  | privateName (name : String)
  | number (value : Decimal)
  | bigint
  /-- A string literal by its value. -/
  | string (value : String)
  /-- The start of a template. -/
  | backtick
  /-- An operator or another sign. -/
  | mark (text : String)
  | finish
  /-- No token begins here. -/
  | stray
  deriving DecidableEq, Repr

/-! ### Blanks and comments -/

/-- What is being skipped. -/
inductive Trivia where
  | blanks
  | lineComment
  | blockComment

/-- What was skipped in front of a token. -/
structure Skipped where
  /-- Whether a line break was among it, or stood before. -/
  broken : Bool
  /-- Where a comment in the manner of markup began: the next token counts from there. -/
  start : Option Nat

namespace Skipped

def withBreak (s : Skipped) : Skipped := { s with broken := true }

def withStart (s : Skipped) (offset : Nat) : Skipped := { s with start := s.start.or (some offset) }

end Skipped

/-- Skips blanks and comments. A block comment has to end. -/
def skipTrivia : Trivia → Skipped → List Char → Nat → Option (Skipped × Place)
  | .blockComment, _, [], _ => none
  | _, s, [], at_ => some (s, ⟨[], at_⟩)
  | .lineComment, s, c :: cs, at_ =>
    if isLineBreak c then skipTrivia .blanks s.withBreak cs (at_ + c.utf8Size)
    else skipTrivia .lineComment s cs (at_ + c.utf8Size)
  | .blockComment, s, '*' :: '/' :: cs, at_ => skipTrivia .blanks s cs (at_ + 2)
  | .blockComment, s, c :: cs, at_ =>
    skipTrivia .blockComment (if isLineBreak c then s.withBreak else s) cs (at_ + c.utf8Size)
  | .blanks, s, '/' :: '/' :: cs, at_ => skipTrivia .lineComment s cs (at_ + 2)
  | .blanks, s, '/' :: '*' :: cs, at_ => skipTrivia .blockComment s cs (at_ + 2)
  | .blanks, s, '<' :: '!' :: '-' :: '-' :: cs, at_ =>
    skipTrivia .lineComment (s.withStart at_) cs (at_ + 4)
  | .blanks, s, c :: cs, at_ =>
    if s.broken && ['-', '-', '>'].isPrefixOf (c :: cs) then
      skipTrivia .lineComment (s.withStart at_) cs (at_ + 1)
    else if isLineBreak c then skipTrivia .blanks s.withBreak cs (at_ + c.utf8Size)
    else if isSpace c then skipTrivia .blanks s cs (at_ + c.utf8Size)
    else some (s, ⟨c :: cs, at_⟩)

/-! ### Escapes -/

/-- Reads digits of a base, underscores among them left out: value, count and what follows. -/
def readDigits (base : Nat) : List Char → Nat → Nat → Nat → Nat × Nat × Place
  | [], value, count, at_ => (value, count, ⟨[], at_⟩)
  | '_' :: cs, value, count, at_ => readDigits base cs value count (at_ + 1)
  | c :: cs, value, count, at_ => match digitValue? base c with
    | some d => readDigits base cs (value * base + d) (count + 1) (at_ + 1)
    | none => (value, count, ⟨c :: cs, at_⟩)

/-- The code point of an escape, read behind its `u`. -/
def readUnicodeEscape (p : Place) : Option (Nat × Place) :=
  match p.rest with
  | '{' :: cs =>
    let (value, count, after) := readDigits 16 cs 0 0 (p.offset + 1)
    match after.rest with
    | '}' :: more =>
      if 0 < count && value ≤ 0x10FFFF then some (value, ⟨more, after.offset + 1⟩) else none
    | _ => none
  | a :: b :: c :: d :: cs => do
    let a ← digitValue? 16 a
    let b ← digitValue? 16 b
    let c ← digitValue? 16 c
    let d ← digitValue? 16 d
    some (((a * 16 + b) * 16 + c) * 16 + d, ⟨cs, p.offset + 4⟩)
  | _ => none

/-- Code points, surrogates among them, as characters. A surrogate without its partner becomes
U+FFFD. -/
def joinSurrogates : List Nat → List Char
  | [] => []
  | [n] => [if 0xD800 ≤ n && n < 0xE000 then Char.ofNat 0xFFFD else Char.ofNat n]
  | high :: low :: ns =>
    if 0xD800 ≤ high && high < 0xDC00 && 0xDC00 ≤ low && low < 0xE000 then
      Char.ofNat (0x10000 + (high - 0xD800) * 0x400 + (low - 0xDC00)) :: joinSurrogates ns
    else
      (if 0xD800 ≤ high && high < 0xE000 then Char.ofNat 0xFFFD else Char.ofNat high) ::
        joinSurrogates (low :: ns)

/-- Octal digits of an old escape: at most three, and no more than a byte holds. -/
def readOctal (p : Place) : Nat × Place :=
  match p.rest with
  | a :: b :: c :: cs => match digitValue? 8 a, digitValue? 8 b, digitValue? 8 c with
    | some a, some b, some c =>
      if a < 4 then ((a * 8 + b) * 8 + c, ⟨cs, p.offset + 3⟩) else (a * 8 + b, p.skip 2)
    | some a, some b, none => (a * 8 + b, p.skip 2)
    | a, _, _ => (a.getD 0, p.skip 1)
  | a :: b :: _ => match digitValue? 8 a, digitValue? 8 b with
    | some a, some b => (a * 8 + b, p.skip 2)
    | a, _ => (a.getD 0, p.skip 1)
  | a :: _ => ((digitValue? 8 a).getD 0, p.skip 1)
  | [] => (0, p)

/-- The code points that an escape stands for, read behind its backslash. -/
def readEscape (p : Place) : Option (List Nat × Place) :=
  match p.rest with
  | [] => none
  | 'n' :: _ => some ([0x0A], p.skip 1)
  | 't' :: _ => some ([0x09], p.skip 1)
  | 'r' :: _ => some ([0x0D], p.skip 1)
  | 'b' :: _ => some ([0x08], p.skip 1)
  | 'v' :: _ => some ([0x0B], p.skip 1)
  | 'f' :: _ => some ([0x0C], p.skip 1)
  | '\r' :: '\n' :: _ => some ([], p.skip 2)
  | 'x' :: a :: b :: _ => do
    let a ← digitValue? 16 a
    let b ← digitValue? 16 b
    some ([a * 16 + b], p.skip 3)
  | 'x' :: _ => none
  | 'u' :: _ => (readUnicodeEscape (p.skip 1)).map fun (n, after) => ([n], after)
  | c :: cs =>
    if isLineBreak c then some ([], ⟨cs, p.offset + c.utf8Size⟩)
    else if (digitValue? 8 c).isSome then
      let (n, after) := readOctal p
      some ([n], after)
    else some ([c.toNat], ⟨cs, p.offset + c.utf8Size⟩)

/-- The code points of a string up to its closing quote, within `steps` steps. -/
def readString (quote : Char) : Nat → Place → Option (List Nat × Place)
  | 0, _ => none
  | steps + 1, p => match p.rest with
    | [] => none
    | c :: cs =>
      let next : Place := ⟨cs, p.offset + c.utf8Size⟩
      if c = quote then some ([], next)
      else if c = '\n' || c = '\r' then none
      else if c = '\\' then do
        let (ns, after) ← readEscape next
        let (more, last) ← readString quote steps after
        some (ns ++ more, last)
      else do
        let (more, last) ← readString quote steps next
        some (c.toNat :: more, last)

/-- The characters of a name, and whether an escape was among them, within `steps` steps. -/
def readName : Nat → Bool → Place → Option (List Char × Bool × Place)
  | 0, _, p => some ([], false, p)
  | steps + 1, first, p =>
    let fits (c : Char) : Bool := if first then isIdentifierStart c else isIdentifierPart c
    match p.rest with
    | '\\' :: 'u' :: _ => do
      let (n, after) ← readUnicodeEscape (p.skip 2)
      if fits (Char.ofNat n) then
        let (more, _, last) ← readName steps false after
        some (Char.ofNat n :: more, true, last)
      else none
    | c :: cs =>
      if fits c then do
        let (more, escaped, last) ← readName steps false ⟨cs, p.offset + c.utf8Size⟩
        some (c :: more, escaped, last)
      else some ([], false, p)
    | [] => some ([], false, p)

/-! ### Numbers -/

/-- An exponent, if one follows. -/
def readExponent (p : Place) : Int × Place :=
  let signed (negative : Bool) (q : Place) : Option (Int × Place) :=
    let (value, count, after) := readDigits 10 q.rest 0 0 q.offset
    if count = 0 then none else some (if negative then -(value : Int) else (value : Int), after)
  let found := match p.rest with
    | e :: '+' :: _ => if e = 'e' || e = 'E' then signed false (p.skip 2) else none
    | e :: '-' :: _ => if e = 'e' || e = 'E' then signed true (p.skip 2) else none
    | e :: _ => if e = 'e' || e = 'E' then signed false (p.skip 1) else none
    | [] => none
  found.getD (0, p)

/-- A fraction and an exponent behind whole digits. -/
def readFraction (whole : Nat) (p : Place) : Token × Place :=
  let (value, count, after) := match p.rest with
    | '.' :: cs => readDigits 10 cs whole 0 (p.offset + 1)
    | _ => (whole, 0, p)
  let (exponent, last) := readExponent after
  (.number ⟨value, exponent - (count : Int)⟩, last)

/-- A whole number, as a big one if an `n` follows. -/
def wholeNumber (value : Nat) (p : Place) : Token × Place :=
  match p.rest with
  | 'n' :: _ => (.bigint, p.skip 1)
  | _ => (.number ⟨value, 0⟩, p)

/-- A number in another base, read behind its two-character mark. -/
def readBased (base : Nat) (p : Place) : Token × Place :=
  let (value, count, after) := readDigits base p.rest 0 0 p.offset
  if count = 0 then (.stray, p) else wholeNumber value after

/-- Decimal digits; without fraction and exponent, a zero in front of octal digits makes them
octal. -/
def readDecimal (p : Place) : Token × Place :=
  let (value, count, after) := readDigits 10 p.rest 0 0 p.offset
  let (octal, octalCount, _) := readDigits 8 p.rest 0 0 p.offset
  if p.rest.head? == some '0' && 1 < count && octalCount == count then (.number ⟨octal, 0⟩, after)
  else match after.rest with
    | 'n' :: _ => (.bigint, after.skip 1)
    | _ => readFraction value after

def readNumber (p : Place) : Token × Place :=
  match p.rest with
  | '0' :: 'x' :: _ | '0' :: 'X' :: _ => readBased 16 (p.skip 2)
  | '0' :: 'o' :: _ | '0' :: 'O' :: _ => readBased 8 (p.skip 2)
  | '0' :: 'b' :: _ | '0' :: 'B' :: _ => readBased 2 (p.skip 2)
  | _ => readDecimal p

/-! ### Signs -/

/-- All signs, each before the signs that it begins with. -/
def marks : List String :=
  [">>>=", "...", "===", "!==", "**=", "<<=", ">>=", ">>>", "&&=", "||=", "??=", "=>", "==", "!=",
   "<=", ">=", "&&", "||", "??", "?.", "++", "--", "+=", "-=", "*=", "/=", "%=", "&=", "|=", "^=",
   "<<", ">>", "**", "\x7b", "\x7d", "(", ")", "[", "]", ";", ",", "<", ">", "+", "-", "*", "/", "%",
   "&", "|", "^", "!", "~", "?", ":", "=", ".", "@", "#"]

/-- The longest sign at a place. A question mark before a dotted number stands alone. -/
def readMark (p : Place) : Token × Place :=
  match p.rest with
  | '?' :: '.' :: d :: _ =>
    if isDigit d then (.mark "?", p.skip 1) else (.mark "?.", p.skip 2)
  | _ => match marks.find? fun m => m.toList.isPrefixOf p.rest with
    | some m => (.mark m, p.skip m.length)
    | none => (.stray, p)

/-- The token at a place where no blank and no comment begins. -/
def readToken (p : Place) : Token × Place :=
  match p.rest with
  | [] => (.finish, p)
  | '\x60' :: _ => (.backtick, p.skip 1)
  | c :: cs =>
    if c = '"' || c = '\'' then
      match readString c p.rest.length ⟨cs, p.offset + 1⟩ with
      | some (ns, after) => (.string (String.ofList (joinSurrogates ns)), after)
      | none => (.stray, p)
    else if isDigit c || (c = '.' && (cs.head?.map isDigit).getD false) then readNumber p
    else if isIdentifierStart c || c = '\\' then
      match readName p.rest.length true p with
      | some (c :: cs, escaped, after) => (.word (String.ofList (c :: cs)) escaped, after)
      | _ => (.stray, p)
    else if c = '#' then
      match readName cs.length true ⟨cs, p.offset + 1⟩ with
      | some (c :: cs, _, after) => (.privateName (String.ofList (c :: cs)), after)
      | _ => (.mark "#", p.skip 1)
    else readMark p

/-! ### The cursor -/

/-- A token in its surroundings. -/
structure Cursor where
  token : Token
  /-- The byte offset from which the token counts. -/
  start : Nat
  /-- Whether a line break stands before the token. -/
  broken : Bool
  /-- The end of the token before. -/
  lastStop : Nat
  /-- The place of the token itself. -/
  place : Place
  /-- The place behind the token. -/
  ahead : Place

namespace Cursor

/-- The first token at or behind a place; `lastStop` is the end of what was read before. -/
def ofPlace (p : Place) (lastStop : Nat) (broken : Bool) : Cursor :=
  match skipTrivia .blanks ⟨broken, none⟩ p.rest p.offset with
  | none => ⟨.stray, p.offset, broken, lastStop, p, p⟩
  | some (s, q) =>
    let (token, ahead) := readToken q
    ⟨token, s.start.getD q.offset, s.broken, lastStop, q, ahead⟩

/-- The next token. -/
def next (c : Cursor) : Cursor := ofPlace c.ahead c.ahead.offset false

/-- The cursor at the first token behind a piece of text that ends at a place. -/
def behind (p : Place) : Cursor := ofPlace p p.offset false

end Cursor

/-- Drops a line that begins with `#!`. -/
def dropHashbang (cs : List Char) : Place :=
  match cs with
  | '#' :: '!' :: _ =>
    let line := cs.takeWhile (!isLineBreak ·)
    ⟨cs.drop line.length, line.foldl (fun n c => n + c.utf8Size) 0⟩
  | _ => ⟨cs, 0⟩

/-- The first token of a source text. -/
def Cursor.ofSource (cs : List Char) : Cursor := ofPlace (dropHashbang cs) 0 true

end ParamLowering.Grammar
