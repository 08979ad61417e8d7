import ParamLowering.Grammar.Token
import ParamLowering.Tree
set_option autoImplicit false

/-!
Parsers as functions on the cursor, and the productions that refer to each other.

A parser either fails or gives a value and moves the cursor. The grammar asks only whether a text
can be read, so a failure carries no message. Productions that are recursive call each other
through a record, `Rules`; `Grammar.Program` makes such records, each from a weaker one.
-/

namespace ParamLowering.Grammar

open ParamLowering.Tree

/-- A dialect of the language. -/
structure Dialect where
  /-- Whether type annotations and type declarations are understood. -/
  types : Bool
  /-- Whether markup elements are expressions. -/
  markup : Bool
  deriving DecidableEq, Repr

/-- What is around a piece of text. -/
structure Mode where
  dialect : Dialect
  /-- In the head of a `for`, where `in` ends an expression. -/
  noIn : Bool := false
  /-- Before the colon of a conditional, where a colon cannot begin a return type. -/
  beforeColon : Bool := false
  generator : Bool := false
  async : Bool := false
  /-- In the parameter list of a function, where `yield` may not stand. -/
  inParams : Bool := false
  /-- Where a single statement has to follow, as behind the head of a loop. -/
  single : Bool := false
  deriving DecidableEq, Repr

/-- The mode inside brackets. -/
def Mode.inner (m : Mode) : Mode := { m with noIn := false, beforeColon := false, single := false }

abbrev Parse := StateT Cursor Option

def openBrace : String := "\x7b"

def closeBrace : String := "\x7d"

namespace Token

def isMark : Token → String → Bool
  | .mark t, text => t == text
  | _, _ => false

/-- Whether a token is a certain word, written without escapes. -/
def isWord : Token → String → Bool
  | .word w false, name => w == name
  | _, _ => false

def isOneOf (t : Token) (texts : List String) : Bool :=
  match t with
  | .mark m => texts.contains m
  | _ => false

/-- The words that cannot be identifiers. -/
def reserved : List String :=
  ["break", "case", "catch", "class", "const", "continue", "debugger", "default", "delete", "do",
   "else", "export", "extends", "false", "finally", "for", "function", "if", "import", "in",
   "instanceof", "new", "null", "return", "super", "switch", "this", "throw", "true", "try", "typeof",
   "var", "void", "while", "with"]

/-- The name of a token that may be an identifier. -/
def identifier? : Token → Option String
  | .word w _ => if reserved.contains w then none else some w
  | _ => none

/-- Whether a token can begin the key of a member. -/
def startsKey : Token → Bool
  | .word .. | .privateName _ | .number _ | .bigint | .string _ => true
  | t => t.isMark "["

/-- Whether a token can begin an expression. -/
def startsExpression : Token → Bool
  | .word w _ => !(["in", "instanceof", "as", "satisfies"].contains w)
  | .number _ | .bigint | .string _ | .backtick | .privateName _ => true
  | t => t.isOneOf ["(", "[", openBrace, "+", "-", "!", "~", "++", "--", "/", "/=", "<"]

end Token

namespace Parse

variable {α : Type}

def token : Parse Token := return (← get).token

def skip : Parse Unit := modify (·.next)

/-- The byte offset of the token. -/
def start : Parse Nat := return (← get).start

/-- The place from an offset to the end of the last token read. -/
def spanFrom (start : Nat) : Parse Span := return ⟨start, (← get).lastStop⟩

/-- Whether a line break stands before the token. -/
def onNewLine : Parse Bool := return (← get).broken

def atMark (text : String) : Parse Bool := return (← get).token.isMark text

def atWord (name : String) : Parse Bool := return (← get).token.isWord name

/-- Reads a sign if it is there. -/
def mark? (text : String) : Parse Bool := do
  if ← atMark text then
    skip
    return true
  else return false

/-- Reads a word if it is there. -/
def word? (name : String) : Parse Bool := do
  if ← atWord name then
    skip
    return true
  else return false

def mark (text : String) : Parse Unit := do
  if !(← mark? text) then failure

def word (name : String) : Parse Unit := do
  if !(← word? name) then failure

def require (b : Bool) : Parse Unit := if b then return else failure

/-- Runs a parser; if it fails, nothing was read. -/
def attempt (p : Parse α) : Parse (Option α) := fun c => match p c with
  | some (a, c) => some (some a, c)
  | none => some (none, c)

/-- What a parser says about the text ahead; nothing is read. -/
def ahead (p : Parse Bool) : Parse Bool := fun c => match p c with
  | some (b, _) => some (b, c)
  | none => some (false, c)

/-- Whether the next token has a property. -/
def nextIs (p : Cursor → Bool) : Parse Bool := return p (← get).next

/-- Whether the next token, on the same line, has a property. -/
def nextOnLineIs (p : Token → Bool) : Parse Bool := nextIs fun c => !c.broken && p c.token

/-- Goes on behind a piece that was read from the characters. -/
def resume (p : Place) : Parse Unit := set (Cursor.behind p)

/-- Repeats a step until it gives nothing; `bound` steps are more than the text has tokens. -/
def repeated : Nat → Parse (Option α) → Parse (List α)
  | 0, _ => failure
  | bound + 1, step => do
    match ← step with
    | none => return []
    | some a => return a :: (← repeated bound step)

/-- Items up to a closing sign, with commas between them and perhaps one behind. -/
def items : Nat → String → Parse α → Parse (List α)
  | 0, _, _ => failure
  | bound + 1, close, item => do
    if ← mark? close then return []
    let a ← item
    if ← mark? "," then return a :: (← items bound close item)
    mark close
    return [a]

/-- One item or more, with a separator between them. -/
def separated : Nat → String → Parse α → Parse (List α)
  | 0, _, _ => failure
  | bound + 1, separator, item => do
    let a ← item
    if ← mark? separator then return a :: (← separated bound separator item)
    return [a]

/-- The end of a statement: a semicolon, or a place where one may be left out. -/
def semicolon : Parse Unit := do
  if ← mark? ";" then return
  let c ← get
  require (c.broken || c.token == .finish || c.token.isMark closeBrace)

/-- Any word, keywords among them, as a name. -/
def anyName : Parse Ident := do
  let c ← get
  match c.token with
  | .word name _ =>
    skip
    return ⟨name, ⟨c.start, c.ahead.offset⟩⟩
  | _ => failure

/-- An identifier. In a module `await` is none. -/
def ident : Parse Ident := do
  match (← token).identifier? with
  | some name =>
    require (name != "await")
    anyName
  | none => failure

end Parse

/-- How an expression may be used on the left of an assignment. -/
inductive OperandForm where
  /-- A variable, a member or something in parentheses. -/
  | reference
  /-- An array or object literal that can be read as a pattern. -/
  | pattern
  /-- An object literal with methods or accessors, or a literal that holds one. -/
  | brokenPattern
  | value
  deriving DecidableEq, Repr

structure Operand where
  node : Node
  form : OperandForm

/-- The recursive productions. -/
structure Rules where
  /-- More than the number of tokens of the text. -/
  bound : Nat
  /-- An expression that may have commas. -/
  expression : Mode → Parse Node
  /-- An expression without commas. -/
  assignment : Mode → Parse Operand
  /-- An expression without operators, but with members and, if asked for, calls behind it. -/
  operand : Mode → Bool → Parse Operand
  /-- A binding target without type and default. -/
  target : Mode → Parse Target
  /-- A type, by the names in it. -/
  type : Mode → Parse (List Node)
  statement : Mode → Parse Node
  /-- A statement, an import or an export. -/
  item : Mode → Parse Node
  /-- A markup element that begins at a place, and the place behind it. -/
  element : Mode → Place → Option (Node × Place)

/-- The rules that read nothing. -/
def Rules.stuck : Rules where
  bound := 0
  expression := fun _ => failure
  assignment := fun _ => failure
  operand := fun _ _ => failure
  target := fun _ => failure
  type := fun _ => failure
  statement := fun _ => failure
  item := fun _ => failure
  element := fun _ _ => none

end ParamLowering.Grammar
