import ParamLowering.Pattern
set_option autoImplicit false

/-!
The syntax tree of a source file, cut down to what scopes, names and parameter lists need.

A construct that neither opens a scope nor declares a name is a `group`: its parts in the order
in which they are visited. Names that only label something (properties, keys, members) are left
out. The types of a statically checked file stand in the tree by the names they mention.
-/

namespace ParamLowering.Tree

/-- An identifier at its place. -/
structure Ident where
  name : String
  span : Span
  deriving DecidableEq, Repr

mutual
/-- A part of the tree. -/
inductive Node where
  /-- An identifier that is read, written or mentioned. -/
  | name (id : Ident)
  /-- A construct by its parts. -/
  | group (span : Span) (parts : List Node)
  /-- The name of a function declaration. -/
  | functionName (id : Ident)
  /-- The name of a class declaration. -/
  | className (id : Ident)
  /-- A function with an `arguments` object of its own: a declaration, an expression or a method.
  The key of a method stands before it. -/
  | function (name : Option String) (span : Span) (params : List Target) (bodySpan : Span)
      (body : List Node)
  /-- Any other function: an arrow, an accessor or a constructor. -/
  | closure (span : Span) (params : List Target) (body : List Node)
  /-- Statements in a scope of their own. -/
  | block (span : Span) (body : List Node)
  /-- The handler of an exception with its parameter, if it has one. -/
  | handler (span : Span) (param : List Target) (body : List Node)
  /-- A declaration of variables. Each initial value is written as a default of its target. -/
  | declaration (span : Span) (kind : DeclarationKind) (targets : List Target)

/-- Something that a value is bound to. The notes are the names in its type. -/
inductive Target where
  | name (id : Ident) (span : Span) (notes : List Node)
  | object (span : Span) (fields : List Field) (notes : List Node)
  | array (span : Span) (slots : List Slot) (notes : List Node)
  | rest (span : Span) (target : Target) (notes : List Node)
  /-- A target with the expression that stands in for a missing value. -/
  | withDefault (target : Target) (value : Node)
  /-- A target whose names are mentioned and not declared, such as a constructor parameter that is
  a property at the same time, or a parameter in a function type. -/
  | undeclared (target : Target)

/-- A field of an object pattern. -/
inductive Field where
  /-- `key: value`. A key that is a big number has no `PropertyKey`; the parts are those of a
  computed key. -/
  | keyed (key : Option PropertyKey) (keyParts : List Node) (value : Target)
  /-- `name` or `name = default`. -/
  | shorthand (id : Ident) (default : Option Node)
  /-- `...target`. -/
  | rest (target : Target)

/-- A place in an array pattern. -/
inductive Slot where
  | hole
  | item (target : Target)
end

namespace Node

/-- The place of a construct in the source. -/
def span : Node → Span
  | name id | functionName id | className id => id.span
  | group s _ | function _ s .. | closure s .. | block s _ | handler s .. | declaration s .. => s

/-- The name of an expression that is nothing but an identifier. -/
def name? : Node → Option String
  | name id => some id.name
  | _ => none

end Node

mutual
/-- The identifiers that a target binds, in source order. -/
def Target.bound : Target → List Ident
  | .name id .. => [id]
  | .object _ fields _ => Field.boundAll fields
  | .array _ slots _ => Slot.boundAll slots
  | .rest _ target _ => target.bound
  | .withDefault target _ => target.bound
  | .undeclared _ => []

def Field.boundAll : List Field → List Ident
  | [] => []
  | f :: fs => f.bound ++ Field.boundAll fs

def Field.bound : Field → List Ident
  | .keyed _ _ value => value.bound
  | .shorthand id _ => [id]
  | .rest target => target.bound

def Slot.boundAll : List Slot → List Ident
  | [] => []
  | s :: ss => s.bound ++ Slot.boundAll ss

def Slot.bound : Slot → List Ident
  | .hole => []
  | .item target => target.bound
end

namespace Target

/-- The place of a target, its type included. -/
def span : Target → Span
  | name _ s _ | object s .. | array s .. | rest s .. => s
  | withDefault target _ | undeclared target => target.span

def isName : Target → Bool
  | name .. => true
  | _ => false

def isRest : Target → Bool
  | rest .. => true
  | _ => false

/-- The place in a parameter list that the names of a parameter get their values from. -/
def position (index : Nat) (target : Target) : Position :=
  if target.isRest then .rest else .index index

end Target

end ParamLowering.Tree
