import ParamLowering.Extraction
set_option autoImplicit false

/-! The statement that carries out an extraction, and the names that it declares for the user. -/

namespace ParamLowering.Extraction

/-- A definition as an item of a declaration. -/
def definitionItem (d : Definition) : Except LoweringError String :=
  match d.target with
  | .ident name _ => .ok s!"{name} = {d.temporary}{d.accessor.render}"
  | .object .. | .array .. => .error (.targetNotSimple d.temporary)

def bindingItem (b : Binding) : String := s!"{b.name} = {b.init.render}"

/-- All items of the declaration, in order of evaluation. -/
def items (x : Extraction) : Except LoweringError (List String) := do
  let definitions ← x.definitions.mapM definitionItem
  return x.bindings.map bindingItem ++ definitions

/-- `var a = x, b = y;`, then the temporaries set to `null` if asked for, then the indent. -/
def declaration (x : Extraction) (indent : String) (cleanup : Bool) :
    Except LoweringError String := do
  let items ← x.items
  let declared := if items.isEmpty then "" else "var " ++ ", ".intercalate items ++ ";"
  let cleared := if cleanup then x.bindings.filter (·.needsCleanup) else []
  return declared ++ String.join (cleared.map fun b => s!"{b.name} = null;") ++ indent

/-- The names of the pattern, in order of declaration. -/
def leafNames (x : Extraction) : List String :=
  (x.bindings.filter (!·.generated)).map (·.name) ++ x.definitions.filterMap (·.target.name?)

end ParamLowering.Extraction
