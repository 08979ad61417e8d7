import ParamLowering.Grammar.Program
import ParamLowering.Path
set_option autoImplicit false

/-!
Source files: which files are lowered, how their names choose a dialect, and how their text is
read.

A byte order mark at the start of a text is dropped before the text is read. The offsets found
then count from behind the mark.
-/

namespace ParamLowering.SourceFile

/-- The extensions of the files that are lowered. -/
def extensions : List String := ["js", "mjs", "cjs", "jsx", "ts", "mts", "cts", "tsx"]

/-- Whether a file has one of these extensions. -/
def isSupported (path : String) : Bool :=
  match Path.extension? path with
  | some e => extensions.contains e
  | none => false

def endsWith (name suffix : String) : Bool := suffix.toList.isSuffixOf name.toList

/-- The dialect of a file by the end of its name. -/
def dialect (name : String) : Grammar.Dialect :=
  if endsWith name ".tsx" then ⟨true, true⟩
  else if endsWith name ".ts" || endsWith name ".mts" || endsWith name ".cts" then ⟨true, false⟩
  else ⟨false, endsWith name ".jsx"⟩

/-- The text without a byte order mark at its start. -/
def withoutMark : List Char → List Char
  | c :: cs => if c.toNat = 0xFEFF then cs else c :: cs
  | [] => []

/-- The number of lines that end before a byte offset. A line ends with a line feed, a carriage
return or both in this order. -/
def linesBefore : List Char → Nat → Nat
  | [], _ => 0
  | '\r' :: '\n' :: cs, offset => if offset < 2 then 0 else linesBefore cs (offset - 2) + 1
  | c :: cs, offset =>
    if offset < c.utf8Size then 0
    else linesBefore cs (offset - c.utf8Size) + (if c = '\n' || c = '\r' then 1 else 0)

/-- The line of a byte offset, counted from one. -/
def lineAt (text : List Char) (offset : Nat) : Nat := linesBefore text offset + 1

/-- The statements of a file; nothing, if its text cannot be read. -/
def statements? (name : String) (source : List Char) : Option (List Tree.Node) :=
  Grammar.parse (dialect name) (withoutMark source)

end ParamLowering.SourceFile
