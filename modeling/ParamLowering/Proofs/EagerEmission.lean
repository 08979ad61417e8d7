import ParamLowering.Proofs.LeafNames
set_option autoImplicit false

/-!
Extraction without waiting.

Eager emission writes every leaf as a binding at the moment it is met. It needs no definitions and
never turns back to what it has written. Extraction gives the same items in the same order, takes
the same names and fails with the same errors.
-/

namespace ParamLowering

/-! ### Eager emission -/

/-- The names taken and the bindings written so far. -/
structure EagerState where
  names : NameSet
  written : List Binding := []

abbrev Eager := ExceptT LoweringError (StateM EagerState)

namespace Eager

def write (b : Binding) : Eager Unit := modify fun s => { s with written := s.written ++ [b] }

def temporary (stem : String) (init : Initializer) : Eager String := do
  let s ← get
  let (name, names) := s.names.fresh stem
  set { s with names }
  write { name, init, needsCleanup := true, generated := true }
  return name

variable (cx : ExtractionContext)

def slice (range : Span) : Eager String := MonadExcept.ofExcept (range.textOrError cx.source)

def accessorOf : PropertyKey → Eager Accessor
  | .ident name | .str name => return .property name
  | .num text => return .computed text
  | .computed expr => return .computed (← slice cx expr)

/-- The temporary that holds a value, or its default where the value is undefined. -/
def guarded (t : String) : Option Span → Eager String
  | none => return t
  | some range => do
    let text ← slice cx range
    temporary cx.stem (.guarded t text)

/-- One value read out of its container; `inside` goes on in a nested pattern. -/
def element (base : String) (accessor : Accessor) (value : Pattern) (default : Option Span)
    (inside : String → Eager Unit) : Eager Unit :=
  match value, default with
  | .ident name _, none => write { name, init := .read base accessor }
  | .ident name _, some range => do
    let text ← slice cx range
    let t ← temporary cx.stem (.read base accessor)
    write { name, init := .guarded t text }
  | .object .., default | .array .., default => do
    let t ← temporary cx.stem (.read base accessor)
    inside (← guarded cx t default)

def remainder (base : String) (count : Nat) (value : Pattern) (inside : String → Eager Unit) :
    Eager Unit :=
  match value with
  | .ident name _ => write { name, init := .tail base count }
  | .object .. | .array .. => do
    inside (← temporary cx.stem (.tail base count))

mutual
def parts (base : String) : Pattern → Eager Unit
  | .ident name _ => write { name, init := .whole base }
  | .object _ props => properties base props
  | .array _ elements none => items base 0 elements
  | .array _ elements (some rest) => do
    items base 0 elements
    remainder cx base elements.length rest fun t => parts t rest

def properties (base : String) : List PatternProperty → Eager Unit
  | [] => return
  | .mk key value default :: props => do
    let accessor ← accessorOf cx key
    element cx base accessor value default fun t => parts t value
    properties base props

def items (base : String) (index : Nat) : List PatternElement → Eager Unit
  | [] => return
  | .hole :: elements => items base (index + 1) elements
  | .item value default :: elements => do
    element cx base (.index index) value default fun t => parts t value
    items base (index + 1) elements
end

def baseOf : SourceExpr → Eager String
  | .reference text => return text
  | .compound text => temporary cx.stem (.whole text)

def emit (pattern : Pattern) (source : SourceExpr) : Eager Unit := do
  parts cx (← baseOf cx source) pattern

end Eager

/-- The bindings of a pattern, each written when it is met, and the names taken afterwards. -/
def ExtractionContext.emit (cx : ExtractionContext) (pattern : Pattern) (source : SourceExpr)
    (names : NameSet) : Except LoweringError (List Binding) × NameSet :=
  match (Eager.emit cx pattern source).run.run { names } with
  | (.ok (), s) => (.ok s.written, s.names)
  | (.error e, s) => (.error e, s.names)

/-! ### Two runs with states of their own -/

section

variable {ε α β S S' : Type} {R : S → S' → Prop}

/-- Two steps from related states give the same value or the same error, and related states. -/
def Mirrors (R : S → S' → Prop) (m : ExceptT ε (StateM S) α) (m' : ExceptT ε (StateM S') α) :
    Prop :=
  ∀ s s', R s s' → ∃ r t t', m.run.run s = (r, t) ∧ m'.run.run s' = (r, t') ∧ R t t'

theorem mirrors_pure (a : α) :
    Mirrors R (pure a : ExceptT ε (StateM S) α) (pure a) :=
  fun s s' h => ⟨.ok a, s, s', rfl, rfl, h⟩

theorem mirrors_throw (e : ε) :
    Mirrors R (throw e : ExceptT ε (StateM S) α) (throw e) :=
  fun s s' h => ⟨.error e, s, s', rfl, rfl, h⟩

theorem mirrors_bind {m : ExceptT ε (StateM S) α} {m' : ExceptT ε (StateM S') α}
    {f : α → ExceptT ε (StateM S) β} {f' : α → ExceptT ε (StateM S') β} (hm : Mirrors R m m')
    (hf : ∀ a, Mirrors R (f a) (f' a)) : Mirrors R (m >>= f) (m' >>= f') := by
  intro s s' h
  obtain ⟨r, t, t', hrun, hrun', ht⟩ := hm s s' h
  rw [run_bind, run_bind, hrun, hrun']
  cases r with
  | ok a => exact hf a t t' ht
  | error e => exact ⟨.error e, t, t', rfl, rfl, ht⟩

end

/-! ### Extraction beside eager emission -/

theorem Pattern.eq_ident_of_name? {p : Pattern} (h : p.name?.isSome) :
    ∃ name span, p = .ident name span := by
  cases p with
  | ident name span => exact ⟨name, span, rfl⟩
  | object span props => cases h
  | array span elements rest => cases h

/-- Only names wait, and read where they stand they complete what is written. -/
structure Follows (s : ExtractionState) (e : EagerState) : Prop where
  names : s.names = e.names
  simple : s.out.Simple
  ordered : s.out.ordered = e.written

namespace Extracting

theorem bind_eager (b : Binding) : Mirrors Follows (Extracting.bind b) (Eager.write b) := by
  rintro s ⟨names, written⟩ ⟨rfl, hsimple, rfl⟩
  refine ⟨.ok (), _, _, (bind_succeeds hsimple).2 rfl, rfl, rfl, ?_, ?_⟩
  · exact Extraction.simple_bindings _
  · exact Extraction.ordered_bindings _

theorem defer_eager (name : String) (span : Span) (base : String) (accessor : Accessor) :
    Mirrors Follows (Extracting.defer ⟨.ident name span, base, accessor⟩)
      (Eager.write { name, init := .read base accessor }) := by
  rintro s ⟨names, written⟩ ⟨rfl, hsimple, rfl⟩
  exact ⟨.ok (), _, _, rfl, rfl, rfl, Extraction.simple_defer hsimple _ _ _ _,
    Extraction.ordered_defer _ _ _ _ _⟩

theorem temporary_eager (stem : String) (init : Initializer) :
    Mirrors Follows (Extracting.temporary stem init) (Eager.temporary stem init) := by
  rintro s ⟨names, written⟩ ⟨rfl, hsimple, rfl⟩
  exact ⟨_, _, _, temporary_succeeds hsimple stem init, rfl, rfl,
    Extraction.simple_bindings _, Extraction.ordered_bindings _⟩

end Extracting

namespace ExtractionContext

open Extracting

variable (cx : ExtractionContext)

theorem slice_eager (range : Span) : Mirrors Follows (cx.slice range) (Eager.slice cx range) := by
  rw [slice, Eager.slice]
  cases range.textOrError cx.source with
  | ok text => exact mirrors_pure text
  | error e => exact mirrors_throw e

theorem accessorOf_eager (key : PropertyKey) :
    Mirrors Follows (cx.accessorOf key) (Eager.accessorOf cx key) := by
  cases key with
  | ident | str | num => exact mirrors_pure _
  | computed range => exact mirrors_bind (slice_eager cx range) fun _ => mirrors_pure _

theorem guarded_eager (t : String) (default : Option Span) :
    Mirrors Follows (cx.guarded t default) (Eager.guarded cx t default) := by
  cases default with
  | none => exact mirrors_pure t
  | some range => exact mirrors_bind (slice_eager cx range) fun _ => temporary_eager _ _

theorem element_eager (base : String) (top : Bool) (accessor : Accessor) (value : Pattern)
    (default : Option Span) {inside : String → Extracting Unit} {inside' : String → Eager Unit}
    (hinside : ∀ t, Mirrors Follows (inside t) (inside' t)) :
    Mirrors Follows (cx.element base top accessor value default inside)
      (Eager.element cx base accessor value default inside') := by
  have hpattern : Mirrors Follows (do
      let t ← Extracting.temporary cx.stem (.read base accessor)
      inside (← cx.guarded t default)) (do
      let t ← Eager.temporary cx.stem (.read base accessor)
      inside' (← Eager.guarded cx t default)) :=
    mirrors_bind (temporary_eager _ _) fun t => mirrors_bind (guarded_eager cx t default) hinside
  cases value with
  | object span props => exact hpattern
  | array span elements rest => exact hpattern
  | ident name span =>
    cases default with
    | none =>
      cases top with
      | true => exact bind_eager _
      | false => exact defer_eager name span base accessor
    | some range =>
      exact mirrors_bind (slice_eager cx range) fun text =>
        mirrors_bind (temporary_eager _ _) fun t => bind_eager _

theorem remainder_eager (base : String) (count : Nat) (value : Pattern)
    {inside : String → Extracting Unit} {inside' : String → Eager Unit}
    (hinside : ∀ t, Mirrors Follows (inside t) (inside' t)) :
    Mirrors Follows (cx.remainder base count value inside)
      (Eager.remainder cx base count value inside') := by
  cases value with
  | ident name span => exact bind_eager _
  | object span props => exact mirrors_bind (temporary_eager _ _) hinside
  | array span elements rest => exact mirrors_bind (temporary_eager _ _) hinside

mutual
theorem parts_eager (base : String) (top : Bool) :
    ∀ p : Pattern, Mirrors Follows (cx.parts base top p) (Eager.parts cx base p)
  | .ident .. => bind_eager _
  | .object _ props => properties_eager base top props
  | .array _ elements none => items_eager base top 0 elements
  | .array _ elements (some rest) =>
    mirrors_bind (items_eager base top 0 elements) fun _ =>
      remainder_eager cx base elements.length rest fun t => parts_eager t false rest

theorem properties_eager (base : String) (top : Bool) : ∀ props : List PatternProperty,
    Mirrors Follows (cx.properties base top props) (Eager.properties cx base props)
  | [] => mirrors_pure ()
  | .mk key value default :: props =>
    mirrors_bind (accessorOf_eager cx key) fun accessor =>
      mirrors_bind (element_eager cx base top accessor value default fun t =>
        parts_eager t false value) fun _ => properties_eager base top props

theorem items_eager (base : String) (top : Bool) : ∀ (index : Nat) (elements : List PatternElement),
    Mirrors Follows (cx.items base top index elements) (Eager.items cx base index elements)
  | _, [] => mirrors_pure ()
  | index, .hole :: elements => items_eager base top (index + 1) elements
  | index, .item value default :: elements =>
    mirrors_bind (element_eager cx base top (.index index) value default fun t =>
      parts_eager t false value) fun _ => items_eager base top (index + 1) elements
end

theorem extract_eager (pattern : Pattern) (source : SourceExpr) :
    Mirrors Follows (cx.extract pattern source) (Eager.emit cx pattern source) := by
  have hbase : Mirrors Follows (cx.baseOf source) (Eager.baseOf cx source) := by
    cases source with
    | reference text => exact mirrors_pure text
    | compound text => exact temporary_eager _ _
  exact mirrors_bind hbase fun base => parts_eager cx base true pattern

/-- Waiting changes nothing: extraction and eager emission take the same names, and either fail
with the same error or give the same items in the same order. The names of the pattern come in
their order, each as often as it stands there, and every definition fills a name. -/
theorem extraction_agrees_with_eager (pattern : Pattern) (source : SourceExpr) (names : NameSet) :
    (cx.extractor.run pattern source names ()).2.1 = (cx.emit pattern source names).2 ∧
      ((∃ e, (cx.extractor.run pattern source names ()).1 = .error e ∧
          (cx.emit pattern source names).1 = .error e) ∨
        ∃ x bs, (cx.extractor.run pattern source names ()).1 = .ok x ∧
          (cx.emit pattern source names).1 = .ok bs ∧
          x.items = .ok (bs.map Extraction.bindingItem) ∧ x.leafNames = pattern.leaves ∧
          ∀ d ∈ x.definitions, ∃ name span, d.target = .ident name span) := by
  obtain ⟨r, s, e, hrun, hrun', hnames, hsimple, hordered⟩ :=
    cx.extract_eager pattern source { names } { names } ⟨rfl, Extraction.simple_bindings [], rfl⟩
  simp only [ExtractionContext.extractor, emit, hrun, hrun']
  cases r with
  | error failure => exact ⟨hnames, .inl ⟨failure, rfl, rfl⟩⟩
  | ok u =>
    have hitems : s.out.items = .ok (e.written.map Extraction.bindingItem) := by
      rw [← hordered, Extraction.items_eq hsimple]
    have hleaves : s.out.leafNames = pattern.leaves :=
      (cx.extract_fills pattern source _ _ _ (Extraction.simple_bindings []) hrun).2
    exact ⟨hnames, .inr ⟨s.out, e.written, rfl, rfl, hitems, hleaves, fun d hd =>
      Pattern.eq_ident_of_name? (hsimple d hd)⟩⟩

end ExtractionContext

end ParamLowering
