set_option autoImplicit false

/-!
Glob patterns for paths.

A pattern matches a whole path, byte by byte. `*` and `?` match separators too. Two stars mean
whole directories where they make up a component of the pattern, and two single stars elsewhere.
Braces hold alternatives, of which empty ones are dropped; brackets hold a class of bytes.
-/

namespace ParamLowering

/-- A range of bytes. -/
structure ByteRange where
  first : UInt8
  last : UInt8
  deriving DecidableEq, Repr

/-- A piece of a pattern. -/
inductive GlobToken where
  | literal (c : Char)
  /-- `?`: one byte. -/
  | any
  /-- `*`: any bytes. -/
  | star
  /-- Two stars in front: any directories, or none. -/
  | leadingDirectories
  /-- A separator with two stars at the end: something below a directory. -/
  | everythingBelow
  /-- Two stars between separators: any directories, or none, in between. -/
  | betweenDirectories
  /-- A class of bytes, or of all other bytes. -/
  | oneOf (negated : Bool) (ranges : List ByteRange)
  | alternatives (branches : List (List GlobToken))

namespace GlobToken

def isLiteral (c : Char) : GlobToken → Bool
  | literal d => c == d
  | _ => false

end GlobToken

namespace Glob

/-! ### Reading patterns -/

/-- The bytes of a character. -/
def bytesOf (c : Char) : List UInt8 := String.utf8EncodeChar c

/-- The byte ranges for a range of characters, which are taken byte by byte: the range proper
stands between the last byte of the first and the first byte of the last. -/
def byteRanges (first last : Char) : List ByteRange :=
  let single (b : UInt8) : ByteRange := ⟨b, b⟩
  if first = last then (bytesOf first).map single
  else
    let low := bytesOf first
    let high := bytesOf last
    low.dropLast.map single ++
      [⟨(low.getLast?).getD 0, (high.head?).getD 0⟩] ++ high.tail.map single

/-- The ranges of a class, latest first, up to and with its bracket; `pending` says that a hyphen
waits for the end of a range. A bracket or hyphen in front stands for itself. -/
def readRanges : Bool → Bool → List (Char × Char) → List Char →
    Option (List (Char × Char) × List Char)
  | _, _, _, [] => none
  | first, pending, ranges, c :: cs =>
    if c = ']' && !first then some (if pending then ('-', '-') :: ranges else ranges, cs)
    else if c = '-' && !first && !pending then readRanges false true ranges cs
    else match pending, ranges with
      | true, (low, _) :: more =>
        if c < low then none else readRanges false false ((low, c) :: more) cs
      | _, _ => readRanges false false ((c, c) :: ranges) cs

/-- A class behind its opening bracket. -/
def readClass (cs : List Char) : Option (GlobToken × List Char) :=
  let (negated, cs) := match cs with
    | '!' :: cs | '^' :: cs => (true, cs)
    | cs => (false, cs)
  (readRanges true false [] cs).map fun (ranges, cs) =>
    (.oneOf negated (ranges.reverse.flatMap fun (a, b) => byteRanges a b), cs)

/-- A pattern that is being read. -/
structure Draft where
  /-- The tokens of the innermost branch, latest first. -/
  branch : List GlobToken := []
  /-- For each open brace, innermost first, the branches before this one, latest first, and the
  tokens in front of the brace. -/
  outer : List (List (List GlobToken) × List GlobToken) := []

namespace Draft

def push (d : Draft) (t : GlobToken) : Draft := { d with branch := t :: d.branch }

def inBraces (d : Draft) : Bool := !d.outer.isEmpty

def openBrace (d : Draft) : Draft := ⟨[], ([], d.branch) :: d.outer⟩

/-- A comma parts the branches of a brace and stands for itself elsewhere. -/
def comma (d : Draft) : Draft :=
  match d.outer with
  | [] => d.push (.literal ',')
  | (done, before) :: outer => ⟨[], (d.branch.reverse :: done, before) :: outer⟩

def closeBrace (d : Draft) : Option Draft :=
  match d.outer with
  | [] => none
  | (done, before) :: outer =>
    some ⟨.alternatives (d.branch.reverse :: done).reverse :: before, outer⟩

/-- Two stars as a component: they take the separator before them in, unless directories are
already matched there. -/
def directories (d : Draft) (t : GlobToken) : Draft :=
  match d.branch with
  | .leadingDirectories :: _ | .everythingBelow :: _ => d
  | _ :: before => { d with branch := t :: before }
  | [] => { d with branch := [t] }

/-- Reads what follows two stars: whether they are a component, and what is left. `previous` is
the character before them. -/
def doubleStar (d : Draft) (previous : Option Char) (cs : List Char) :
    Draft × Option Char × List Char :=
  let plain := ((d.push .star).push .star, some '*', cs)
  if d.branch.isEmpty then match cs with
    | [] => (d.push .leadingDirectories, some '*', [])
    | '/' :: cs => (d.push .leadingDirectories, some '/', cs)
    | _ => plain
  else if previous != some '/' then plain
  else match cs with
    | [] => (d.directories .everythingBelow, some '*', [])
    | '/' :: cs => (d.directories .betweenDirectories, some '/', cs)
    | c :: _ =>
      if d.inBraces && (c = ',' || c = '\x7d') then (d.directories .everythingBelow, some '*', cs)
      else plain

/-- Reads a pattern within `steps` steps. -/
def read : Nat → Draft → Option Char → List Char → Option Draft
  | _, d, _, [] => some d
  | 0, _, _, _ => none
  | steps + 1, d, previous, c :: cs => match c, cs with
    | '?', cs => read steps (d.push .any) (some '?') cs
    | '*', '*' :: cs =>
      let (d, previous, cs) := d.doubleStar previous cs
      read steps d previous cs
    | '*', cs => read steps (d.push .star) (some '*') cs
    | '[', cs => (readClass cs).bind fun (t, cs) => read steps (d.push t) (some ']') cs
    | '\x7b', cs => read steps d.openBrace (some '\x7b') cs
    | '\x7d', cs => d.closeBrace.bind fun d => read steps d (some '\x7d') cs
    | ',', cs => read steps d.comma (some ',') cs
    | '\\', c :: cs => read steps (d.push (.literal c)) (some c) cs
    | '\\', [] => none
    | c, cs => read steps (d.push (.literal c)) (some c) cs

end Draft

/-- The tokens of a pattern; nothing, if a class or a brace is not closed, a brace was not opened,
a range runs backwards or a backslash stands last. -/
def tokens? (pattern : List Char) : Option (List GlobToken) :=
  (Draft.read (pattern.length + 1) {} none pattern).bind fun d =>
    if d.inBraces then none else some d.branch.reverse

/-! ### Matching -/

/-- The text behind each separator. -/
def behindSeparators : List UInt8 → List (List UInt8)
  | [] => []
  | b :: bs => if b = 47 then bs :: behindSeparators bs else behindSeparators bs

/-- All ends of a text, the text itself first. -/
def ends : List UInt8 → List (List UInt8)
  | [] => [[]]
  | b :: bs => (b :: bs) :: ends bs

/-- The longest of some texts. -/
def longest : List (List UInt8) → List (List UInt8)
  | [] => []
  | s :: ss => match longest ss with
    | [] => [s]
    | t :: _ => if t.length < s.length then [s] else [t]

/-- Ends of one text without repetitions; they are told apart by their lengths. -/
def distinct : List (List UInt8) → List (List UInt8)
  | [] => []
  | s :: ss =>
    let more := distinct ss
    if more.any (·.length == s.length) then more else s :: more

/-- What is left behind one byte that a test admits. -/
def afterByte (admits : UInt8 → Bool) (rests : List (List UInt8)) : List (List UInt8) :=
  rests.filterMap fun
    | b :: bs => if admits b then some bs else none
    | [] => none

/-- What is left behind some bytes. -/
def afterBytes (bytes : List UInt8) (rests : List (List UInt8)) : List (List UInt8) :=
  rests.filterMap fun s => if bytes.isPrefixOf s then some (s.drop bytes.length) else none

/-- What is left behind any bytes. -/
def afterAny (rests : List (List UInt8)) : List (List UInt8) := (longest rests).flatMap ends

/-- What is left behind nothing, a separator, or anything that ends in one. -/
def afterLeading (rests : List (List UInt8)) : List (List UInt8) :=
  distinct (rests ++ (longest rests).flatMap behindSeparators)

/-- What is left behind a separator, perhaps with anything between it and another one. -/
def afterBetween (rests : List (List UInt8)) : List (List UInt8) :=
  let inside := afterByte (· == 47) rests
  distinct (inside ++ (longest inside).flatMap behindSeparators)

mutual
/-- Whether a token is nothing but empty alternatives. -/
def isVoid : GlobToken → Bool
  | .alternatives branches => areVoid branches
  | _ => false

def isVoidBranch : List GlobToken → Bool
  | [] => true
  | t :: ts => isVoid t && isVoidBranch ts

def areVoid : List (List GlobToken) → Bool
  | [] => true
  | b :: bs => isVoidBranch b && areVoid bs
end

mutual
/-- What may be left of some texts, all of them ends of one, behind a token. -/
def after (t : GlobToken) (rests : List (List UInt8)) : List (List UInt8) :=
  match t with
  | .literal c => afterBytes (bytesOf c) rests
  | .any => afterByte (fun _ => true) rests
  | .star => afterAny rests
  | .leadingDirectories => afterLeading rests
  | .everythingBelow => afterAny (afterByte (· == 47) rests)
  | .betweenDirectories => afterBetween rests
  | .oneOf negated ranges =>
    afterByte (fun b => negated != ranges.any fun r => r.first ≤ b && b ≤ r.last) rests
  | .alternatives branches =>
    if areVoid branches then rests else distinct (afterBranches branches rests)

/-- What may be left behind all tokens of a branch. -/
def afterBranch (ts : List GlobToken) (rests : List (List UInt8)) : List (List UInt8) :=
  match ts with
  | [] => rests
  | t :: ts => afterBranch ts (after t rests)

/-- What may be left behind one of some branches; void ones do not count. -/
def afterBranches (branches : List (List GlobToken)) (rests : List (List UInt8)) :
    List (List UInt8) :=
  match branches with
  | [] => []
  | b :: bs =>
    (if isVoidBranch b then [] else afterBranch b rests) ++ afterBranches bs rests
end

def isAnyLiteral : GlobToken → Bool
  | .literal _ => true
  | _ => false

/-- Whether a pattern that ends in a dot asks for the name or extension of a file. Literal text,
alone or behind a star, is compared with the end of the path instead. -/
def asksForName (tokens : List GlobToken) : Bool :=
  match tokens.getLast? with
  | some t => t.isLiteral '.' && (match tokens with
    | [.star, .literal '.'] | [.leadingDirectories, .star, .literal '.'] => true
    | .leadingDirectories :: .star :: ts | .star :: ts => !ts.all isAnyLiteral
    | .leadingDirectories :: ts => !(ts.all isAnyLiteral && ts.any (·.isLiteral '/'))
    | ts => !ts.all isAnyLiteral)
  | none => false

end Glob

/-- A pattern that was read. -/
structure Glob where
  text : String
  tokens : List GlobToken

namespace Glob

def ofText? (text : String) : Option Glob := (tokens? text.toList).map fun tokens => ⟨text, tokens⟩

/-- Whether a pattern matches a path. Two stars alone match everything. A path that ends in a dot
has no file name, and a pattern that asks for one does not match it. -/
def matchesPath (g : Glob) (path : String) : Bool :=
  match g.tokens with
  | [.leadingDirectories] => true
  | tokens =>
    !(asksForName tokens && path.toList.getLast? == some '.') &&
      (afterBranch tokens [path.toList.flatMap bytesOf]).any (·.isEmpty)

end Glob

end ParamLowering
