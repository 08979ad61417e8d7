import ParamLowering.Sorting
set_option autoImplicit false

/-!
The names taken in a run, and fresh names that are not among them.

A fresh name is a stem followed by the decimal form of a number. For each stem the set remembers
where its last search ended, so that a later search of the same stem starts there.
-/

namespace ParamLowering

structure NameSet where
  /-- The names taken, latest first, each once. -/
  taken : List String := []
  /-- For each stem searched, latest first, the number after the last one given out. -/
  resume : List (String × Nat) := []
  deriving Repr

namespace NameSet

def empty : NameSet := {}

def contains (s : NameSet) (name : String) : Bool := s.taken.contains name

def size (s : NameSet) : Nat := s.taken.length

/-- Adds a name; says whether it was new. -/
def insert (s : NameSet) (name : String) : Bool × NameSet :=
  if s.contains name then (false, s) else (true, { s with taken := name :: s.taken })

/-- The set with one more name. -/
def add (s : NameSet) (name : String) : NameSet := (s.insert name).2

/-- The names by code point. -/
def toList (s : NameSet) : List String := Sorting.sort (fun a b => decide (a ≤ b)) s.taken

/-- The stem followed by a number in decimal. -/
def numbered (stem : String) (n : Nat) : String := stem ++ toString n

/-- The first free number from `n` on. One step more than there are names is always enough. -/
def firstFree (taken : List String) (stem : String) : Nat → Nat → Nat
  | 0, n => n
  | steps + 1, n =>
    if taken.contains (numbered stem n) then firstFree taken stem steps (n + 1) else n

/-- Takes the first free name of a stem. -/
def fresh (s : NameSet) (stem : String) : String × NameSet :=
  let start := (s.resume.lookup stem).getD 0
  let n := firstFree s.taken stem (s.taken.length + 1) start
  (numbered stem n, { taken := numbered stem n :: s.taken, resume := (stem, n + 1) :: s.resume })

end NameSet

end ParamLowering
