import ParamLowering.Text.Quoted
set_option autoImplicit false

/-! JSON values, and their text over several lines with an indent of two blanks a level. -/

namespace ParamLowering

inductive JsonValue where
  | null
  | bool (value : Bool)
  /-- A number by its text. -/
  | number (text : String)
  | string (text : String)
  | array (items : List JsonValue)
  /-- Members in order; a name may come more than once. -/
  | object (members : List (String × JsonValue))

namespace JsonValue

def nat (n : Nat) : JsonValue := number (toString n)

/-- A new line at a level. -/
def lineBreak (level : Nat) : List Char := '\n' :: List.replicate (2 * level) ' '

mutual
/-- The text of a value that stands at a level. -/
def pretty (level : Nat) : JsonValue → List Char
  | null => "null".toList
  | bool true => "true".toList
  | bool false => "false".toList
  | number text => text.toList
  | string text => Text.quoted text.toList
  | array [] => ['[', ']']
  | array (v :: vs) =>
    '[' :: lineBreak (level + 1) ++ v.pretty (level + 1) ++ moreItems (level + 1) vs ++
      lineBreak level ++ [']']
  | object [] => ['{', '}']
  | object ((name, v) :: ms) =>
    '{' :: lineBreak (level + 1) ++ Text.quoted name.toList ++ [':', ' '] ++ v.pretty (level + 1) ++
      moreMembers (level + 1) ms ++ lineBreak level ++ ['}']

/-- Items after the first. -/
def moreItems (level : Nat) : List JsonValue → List Char
  | [] => []
  | v :: vs => ',' :: lineBreak level ++ v.pretty level ++ moreItems level vs

/-- Members after the first. -/
def moreMembers (level : Nat) : List (String × JsonValue) → List Char
  | [] => []
  | (name, v) :: ms =>
    ',' :: lineBreak level ++ Text.quoted name.toList ++ [':', ' '] ++ v.pretty level ++
      moreMembers level ms
end

end JsonValue

end ParamLowering
