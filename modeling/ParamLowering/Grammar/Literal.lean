import ParamLowering.Grammar.Parse
set_option autoImplicit false

/-!
Pieces of text that are read from the characters: templates and regular expressions; and the
keys of properties and members.
-/

namespace ParamLowering.Grammar

open ParamLowering.Tree

variable {α : Type}

/-! ### Templates -/

/-- Whether an escape, read behind its backslash, stands for something in a template. Octal ones
do not. -/
def fitsTemplate (p : Place) : Bool :=
  match p.rest with
  | '0' :: d :: _ => (digitValue? 8 d).isNone
  | c :: _ => (c == '0' || (digitValue? 8 c).isNone) && (readEscape p).isSome
  | [] => false

/-- The contents of the holes of a template, from a place inside it to behind its end. Behind a
tag the escapes may be anything. -/
def holes (hole : Parse α) (tagged : Bool) : Nat → Place → Option (List α × Place)
  | 0, _ => none
  | bound + 1, p => match p.rest with
    | [] => none
    | '\x60' :: _ => some ([], p.skip 1)
    | '\\' :: c :: cs =>
      if tagged || fitsTemplate (p.skip 1) then
        holes hole tagged bound ⟨cs, p.offset + 1 + c.utf8Size⟩
      else none
    | '$' :: '{' :: _ => match hole (Cursor.behind (p.skip 2)) with
      | none => none
      | some (a, c) =>
        if c.token.isMark closeBrace then
          (holes hole tagged bound (c.place.skip 1)).map fun (more, last) => (a :: more, last)
        else none
    | c :: cs => holes hole tagged bound ⟨cs, p.offset + c.utf8Size⟩

/-- A template whose holes hold what `hole` reads. -/
def template (hole : Parse α) (tagged : Bool) : Parse (List α) := do
  let c ← get
  match c.token with
  | .backtick => match holes hole tagged (c.place.rest.length + 1) c.ahead with
    | some (parts, p) =>
      Parse.resume p
      return parts
    | none => failure
  | _ => failure

/-! ### Regular expressions -/

/-- The place behind the slash that ends a regular expression. -/
def regexEnd (inClass : Bool) : List Char → Nat → Option Place
  | [], _ => none
  | [c], at_ => if c = '/' && !inClass then some ⟨[], at_ + 1⟩ else none
  | c :: d :: cs, at_ =>
    if isLineBreak c then none
    else if c = '\\' then
      if isLineBreak d then none else regexEnd inClass cs (at_ + 1 + d.utf8Size)
    else if c = '/' && !inClass then some ⟨d :: cs, at_ + 1⟩
    else
      regexEnd (if c = '[' then true else if c = ']' then false else inClass) (d :: cs)
        (at_ + c.utf8Size)

/-- A regular expression with its flags. -/
def regex : Parse Unit := do
  let p := (← get).place
  match p.rest with
  | '/' :: cs => match regexEnd false cs (p.offset + 1) with
    | some q => match readName (q.rest.length + 1) false q with
      | some (_, _, last) => Parse.resume last
      | none => failure
    | none => failure
  | _ => failure

/-! ### Keys -/

/-- The key of a property or member. -/
inductive Key where
  | ident (id : Ident)
  | str (text : String)
  | num (text : String)
  | bigint
  | computed (expr : Node)
  /-- A name behind `#`. -/
  | hidden (name : String)

namespace Key

def property? : Key → Option PropertyKey
  | ident id => some (.ident id.name)
  | str text => some (.str text)
  | num text => some (.num text)
  | computed expr => some (.computed expr.span)
  | bigint | hidden _ => none

/-- What there is to visit in a key. -/
def parts : Key → List Node
  | computed expr => [expr]
  | _ => []

/-- The name of a method with this key. -/
def label : Key → Option String
  | ident id => some id.name
  | str text => some text
  | num text => some text
  | hidden name => some ("#" ++ name)
  | bigint | computed _ => none

/-- Whether a key is the name `name`, plain or quoted. -/
def isCalled (key : Key) (name : String) : Bool :=
  match key with
  | ident id => id.name == name
  | str text => text == name
  | _ => false

end Key

/-- Reads a key. -/
def key (g : Rules) (m : Mode) : Parse Key := do
  match ← Parse.token with
  | .word .. => return .ident (← Parse.anyName)
  | .string text =>
    Parse.skip
    return .str text
  | .number value =>
    Parse.skip
    return .num (Binary64.ofDecimal value).text
  | .bigint =>
    Parse.skip
    return .bigint
  | .privateName name =>
    Parse.skip
    return .hidden name
  | _ =>
    Parse.mark "["
    let expr ← g.assignment m.inner
    Parse.mark "]"
    return .computed expr.node

end ParamLowering.Grammar
