import ParamLowering.Grammar.Type
set_option autoImplicit false

/-!
Markup elements. Inside a tag there are tokens, with names that may hold hyphens; between tags
there is text, of which only braces and angle brackets mean something.
-/

namespace ParamLowering.Grammar

open ParamLowering.Tree Parse

/-- A name that may hold hyphens. -/
def hyphenated : Parse Ident := do
  let p := (← get).place
  match p.rest with
  | c :: _ =>
    if isIdentifierStart c then
      let name := p.rest.takeWhile fun c => isIdentifierPart c || c == '-'
      let stop := p.offset + Text.byteLength name
      resume ⟨p.rest.drop name.length, stop⟩
      return ⟨String.ofList name, ⟨p.offset, stop⟩⟩
    else failure
  | [] => failure

/-- The name of an element: its text, and the identifier that it mentions. A name with a colon
mentions none. -/
def elementName (g : Rules) : Parse (String × List Node) := do
  let id ← hyphenated
  if ← mark? ":" then
    let second ← hyphenated
    return (id.name ++ ":" ++ second.name, [])
  else
    let members ← repeated g.bound do
      if ← mark? "." then return some (← hyphenated) else return none
    return (String.join (id.name :: members.map fun member => "." ++ member.name), [.name id])

/-- The place behind the quote that closes an attribute value. -/
def quotedEnd (quote : Char) : List Char → Nat → Option Place
  | [], _ => none
  | c :: cs, at_ => if c = quote then some ⟨cs, at_ + 1⟩ else quotedEnd quote cs (at_ + c.utf8Size)

/-- The value of an attribute. -/
def attributeValue (g : Rules) (m : Mode) : Parse (List Node) := do
  let p := (← get).place
  match p.rest with
  | '"' :: cs | '\'' :: cs => match quotedEnd (p.rest.headD '"') cs (p.offset + 1) with
    | some last =>
      resume last
      return []
    | none => failure
  | '{' :: _ =>
    skip
    let value ← g.expression m.inner
    mark closeBrace
    return [value]
  | _ => match g.element m p with
    | some (node, last) =>
      resume last
      return [node]
    | none => failure

def attribute? (g : Rules) (m : Mode) : Parse (Option (List Node)) := do
  if (← atMark ">") || (← atMark "/") then return none
  else if ← mark? openBrace then
    mark "..."
    let value ← g.assignment m.inner
    mark closeBrace
    return some [value.node]
  else if (← token).isOneOf [">>", ">=", ">>=", ">>>", ">>>="] then return none
  else
    let _ ← hyphenated
    if ← mark? ":" then
      let _ ← hyphenated
    if ← mark? "=" then return some (← attributeValue g m) else return some []

/-- The place behind a `>` at the token. -/
def behindAngle (c : Cursor) : Option Place :=
  match c.place.rest with
  | '>' :: _ => some (c.place.skip 1)
  | _ => none

/-- The closing tag, read behind its slash: its name with what it mentions, and the place behind
it. -/
def closingTag (g : Rules) (c : Cursor) : Option ((String × List Node) × Place) := do
  if c.token.isOneOf [">", ">>", ">=", ">>=", ">>>", ">>>="] then
    return (("", []), ← behindAngle c)
  else
    let (name, c) ← elementName g c
    return (name, ← behindAngle c)

/-- The children of an element with a closing tag of the given name, and the place behind it. -/
def children (g : Rules) (m : Mode) (name : String) : Nat → Place → Option (List Node × Place)
  | 0, _ => none
  | bound + 1, p => match p.rest with
    | [] => none
    | '<' :: _ =>
      let c := (Cursor.behind p).next
      if c.token.isMark "/" then do
        let ((closing, nodes), last) ← closingTag g c.next
        if closing == name then some (nodes, last) else none
      else do
        let (child, after) ← g.element m p
        let (more, last) ← children g m name bound after
        some (child :: more, last)
    | '{' :: _ => do
      let c := Cursor.behind (p.skip 1)
      if c.token.isMark closeBrace then children g m name bound (c.place.skip 1)
      else
        let (node, c) ← g.expression m.inner (if c.token.isMark "..." then c.next else c)
        if c.token.isMark closeBrace then
          let (more, last) ← children g m name bound (c.place.skip 1)
          some (node :: more, last)
        else none
    | c :: cs => children g m name bound ⟨cs, p.offset + c.utf8Size⟩

/-- What an opening tag holds up to its `>` or `/`. -/
def openingTag (g : Rules) (m : Mode) : Parse (String × List Node) := do
  let (name, mentioned) ← elementName g
  let types ← if m.dialect.types then typeArguments? g m else pure []
  let attributes ← repeated g.bound (attribute? g m)
  return (name, mentioned ++ attributes.flatten ++ types)

/-- An element or a fragment. -/
def markup (g : Rules) (m : Mode) (p : Place) : Option (Node × Place) := do
  let c := Cursor.behind p
  guard (c.token.isOneOf ["<"])
  let inside := c.next
  match behindAngle inside with
  | some after =>
    let (parts, last) ← children g m "" (p.rest.length + 1) after
    return (.group ⟨p.offset, last.offset⟩ parts, last)
  | none =>
    let ((name, parts), c) ← openingTag g m inside
    if c.token.isMark "/" then
      let last ← behindAngle c.next
      return (.group ⟨p.offset, last.offset⟩ parts, last)
    else
      let after ← behindAngle c
      let (more, last) ← children g m name (p.rest.length + 1) after
      return (.group ⟨p.offset, last.offset⟩ (parts ++ more), last)

end ParamLowering.Grammar
