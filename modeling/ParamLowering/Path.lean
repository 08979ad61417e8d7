set_option autoImplicit false

/-!
Paths of a file system in which `/` separates names.

A path is kept as the text it was given in. Its components leave out repeated and trailing
separators and every `.` but a leading one; a `..` is not resolved.
-/

namespace ParamLowering

/-- A component of a path. -/
inductive PathComponent where
  | root
  | current
  | parent
  | name (text : String)
  deriving DecidableEq, Repr

namespace PathComponent

/-- The place of a component before all names: the root, then `.`, then `..`. -/
def rank : PathComponent → Nat
  | root => 0
  | current => 1
  | parent => 2
  | name _ => 3

/-- Whether one component sorts strictly before another; names sort by their bytes, which for
UTF-8 is the order of their characters. -/
def before : PathComponent → PathComponent → Bool
  | name a, name b => decide (a < b)
  | a, b => a.rank < b.rank

def text : PathComponent → String
  | root => "/"
  | current => "."
  | parent => ".."
  | name t => t

end PathComponent

namespace Path

/-- The pieces of a text between separators. -/
def pieces : List Char → List (List Char)
  | [] => [[]]
  | c :: cs =>
    if c = '/' then [] :: pieces cs
    else match pieces cs with
      | [] => [[c]]
      | p :: ps => (c :: p) :: ps

/-- A piece as a component; empty pieces and dots are none. -/
def component? (piece : List Char) : Option PathComponent :=
  match piece with
  | [] | ['.'] => none
  | ['.', '.'] => some .parent
  | cs => some (.name (String.ofList cs))

def components (path : String) : List PathComponent :=
  let cs := path.toList
  let tail := (pieces cs).filterMap component?
  match cs with
  | '/' :: _ => .root :: tail
  | ['.'] | '.' :: '/' :: _ => .current :: tail
  | _ => tail

/-- The name at the end of a path, if it ends in one. -/
def fileName? (path : String) : Option String :=
  match (components path).getLast? with
  | some (.name t) => some t
  | _ => none

/-- What follows the last dot of a file name; a dot in front begins no extension. -/
def extension? (path : String) : Option String :=
  (fileName? path).bind fun name =>
    let reversed := name.toList.reverse
    let after := reversed.takeWhile (· != '.')
    match reversed.drop after.length with
    | '.' :: _ :: _ => some (String.ofList after.reverse)
    | _ => none

/-- Whether one path sorts before or with another, component by component. -/
def componentsLe : List PathComponent → List PathComponent → Bool
  | [], _ => true
  | _ :: _, [] => false
  | a :: as, b :: bs =>
    if a.before b then true else if b.before a then false else componentsLe as bs

def le (a b : String) : Bool := componentsLe (components a) (components b)

def isAbsolute (path : String) : Bool := path.toList.head? == some '/'

/-- A path below another one; an absolute path stays what it is. -/
def join (base path : String) : String :=
  if isAbsolute path then path
  else if base.isEmpty || base.toList.getLast? == some '/' then base ++ path
  else base ++ "/" ++ path

/-- Whether a piece between separators leaves a path where it is. -/
def isIdle (piece : List Char) : Bool := piece.isEmpty || piece == ['.']

/-- Pieces without those at the end that leave a path where it is. -/
def trimmed (pieces : List (List Char)) : List (List Char) :=
  (pieces.reverse.dropWhile isIdle).reverse

/-- The path before the last component; nothing, if there is no component but a root. -/
def parent? (path : String) : Option String :=
  match components path with
  | [] | [.root] => none
  | _ => match pieces path.toList with
    | [] => none
    | first :: more =>
      let kept := trimmed (trimmed more).dropLast
      if (trimmed more).isEmpty then some ""
      else if kept.isEmpty && first.isEmpty then some "/"
      else some (String.ofList (['/'].intercalate (first :: kept)))

/-- The components of a path below another one, if it begins with all of that one's. -/
def below? (base path : String) : Option (List PathComponent) :=
  let front := components base
  let all := components path
  if front.isPrefixOf all then some (all.drop front.length) else none

end Path

end ParamLowering
