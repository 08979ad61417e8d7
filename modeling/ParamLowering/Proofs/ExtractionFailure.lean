import ParamLowering.Proofs.Boundary
import ParamLowering.Proofs.NameHistory
set_option autoImplicit false

/-!
When extraction fails, and what it leaves behind.

From outside, extraction is a list of steps that the shape of the pattern fixes: it reads the
text of a range, or makes up a temporary. It goes through them up to the first range that is no
text, fails there, and keeps the temporaries that it has made up. Nothing else in it can fail.
-/

namespace ParamLowering

/-- A range is inverted, reaches past the text, or begins or ends inside a character. -/
def Span.Faulty (source : List Char) (s : Span) : Prop :=
  s.stop < s.start ∨ Text.byteLength source < s.stop ∨
    Text.isBoundary source s.start = false ∨ Text.isBoundary source s.stop = false

theorem Span.text?_eq_none_iff {source : List Char} {s : Span} :
    s.text? source = none ↔ s.Faulty source := by
  constructor
  · intro h
    by_contra hfaulty
    simp only [Faulty, not_or, Nat.not_lt, Bool.not_eq_false] at hfaulty
    obtain ⟨horder, -, hstart, hstop⟩ := hfaulty
    obtain ⟨before, part, after, hsource, hbefore, hpart⟩ := Text.exists_split hstart hstop horder
    have htext : s.text? source = some part :=
      Text.slice?_eq_some_iff.2 ⟨before, after, hsource, hbefore, hpart⟩
    rw [h] at htext
    cases htext
  · intro hfaulty
    cases htext : s.text? source with
    | none => rfl
    | some part =>
      obtain ⟨before, after, rfl, hstart, hstop⟩ := Text.slice?_eq_some_iff.1 htext
      have hfirst : Text.isBoundary (before ++ part ++ after) s.start = true :=
        Text.isBoundary_iff.2 ⟨before, part ++ after, by simp, hstart⟩
      have hlast : Text.isBoundary (before ++ part ++ after) s.stop = true :=
        Text.isBoundary_iff.2 ⟨before ++ part, after, rfl, by simpa using hstop⟩
      have hlength := Text.le_byteLength_of_isBoundary hlast
      rcases hfaulty with h | h | h | h
      · omega
      · omega
      · rw [hfirst] at h; cases h
      · rw [hlast] at h; cases h

/-! ### The ranges of a pattern -/

def PropertyKey.ranges : PropertyKey → List Span
  | .computed expr => [expr]
  | .ident _ | .str _ | .num _ => []

mutual
/-- The ranges that a pattern has read, from left to right: of each element the key, the default,
and then what is in the pattern below it. -/
def Pattern.ranges : Pattern → List Span
  | .ident .. => []
  | .object _ props => Pattern.propertyRanges props
  | .array _ elements none => Pattern.elementRanges elements
  | .array _ elements (some rest) => Pattern.elementRanges elements ++ rest.ranges

def Pattern.propertyRanges : List PatternProperty → List Span
  | [] => []
  | .mk key value default :: props =>
    key.ranges ++ default.toList ++ value.ranges ++ Pattern.propertyRanges props

def Pattern.elementRanges : List PatternElement → List Span
  | [] => []
  | .hole :: elements => Pattern.elementRanges elements
  | .item value default :: elements =>
    default.toList ++ value.ranges ++ Pattern.elementRanges elements
end

/-! ### Steps -/

inductive ExtractionStep where
  /-- Reads the text of a range. -/
  | read (range : Span)
  /-- Makes up a temporary. -/
  | draw
  deriving DecidableEq, Repr

def ExtractionStep.range? : ExtractionStep → Option Span
  | .read range => some range
  | .draw => none

/-- A default gets a temporary, after its text was read. -/
def guardSteps : Option Span → List ExtractionStep
  | none => []
  | some default => [.read default, .draw]

/-- The steps at an element, before what is below it. A pattern holds its value in a temporary,
even before its default is read. -/
def Pattern.entrySteps : Pattern → Option Span → List ExtractionStep
  | .ident .., default => guardSteps default
  | .object .., default | .array .., default => .draw :: guardSteps default

mutual
def Pattern.steps : Pattern → List ExtractionStep
  | .ident .. => []
  | .object _ props => Pattern.propertySteps props
  | .array _ elements none => Pattern.elementSteps elements
  | .array _ elements (some rest) =>
    Pattern.elementSteps elements ++ (rest.entrySteps none ++ rest.steps)

def Pattern.propertySteps : List PatternProperty → List ExtractionStep
  | [] => []
  | .mk key value default :: props =>
    key.ranges.map .read ++ (value.entrySteps default ++ value.steps) ++
      Pattern.propertySteps props

def Pattern.elementSteps : List PatternElement → List ExtractionStep
  | [] => []
  | .hole :: elements => Pattern.elementSteps elements
  | .item value default :: elements =>
    value.entrySteps default ++ value.steps ++ Pattern.elementSteps elements
end

def SourceExpr.steps : SourceExpr → List ExtractionStep
  | .reference _ => []
  | .compound _ => [.draw]

/-! What is read on the way are the ranges of the pattern in their order. -/

theorem Pattern.ranges_entrySteps (value : Pattern) (default : Option Span) :
    (value.entrySteps default).filterMap (·.range?) = default.toList := by
  cases value <;> cases default <;> rfl

theorem PropertyKey.ranges_map_read (key : PropertyKey) :
    (key.ranges.map ExtractionStep.read).filterMap (·.range?) = key.ranges := by
  cases key <;> rfl

theorem SourceExpr.ranges_steps (source : SourceExpr) :
    source.steps.filterMap (·.range?) = [] := by
  cases source <;> rfl

mutual
theorem Pattern.ranges_steps : ∀ p : Pattern, p.steps.filterMap (·.range?) = p.ranges
  | .ident .. => rfl
  | .object _ props => by rw [steps, ranges, Pattern.ranges_propertySteps props]
  | .array _ elements none => by rw [steps, ranges, Pattern.ranges_elementSteps elements]
  | .array _ elements (some rest) => by
    rw [steps, ranges, List.filterMap_append, List.filterMap_append, ranges_entrySteps,
      Pattern.ranges_elementSteps elements, Pattern.ranges_steps rest]
    rfl

theorem Pattern.ranges_propertySteps : ∀ props : List PatternProperty,
    (Pattern.propertySteps props).filterMap (·.range?) = Pattern.propertyRanges props
  | [] => rfl
  | .mk key value default :: props => by
    simp only [propertySteps, propertyRanges, List.filterMap_append, ranges_entrySteps,
      PropertyKey.ranges_map_read, Pattern.ranges_steps value, Pattern.ranges_propertySteps props,
      List.append_assoc]

theorem Pattern.ranges_elementSteps : ∀ elements : List PatternElement,
    (Pattern.elementSteps elements).filterMap (·.range?) = Pattern.elementRanges elements
  | [] => rfl
  | .hole :: elements => Pattern.ranges_elementSteps elements
  | .item value default :: elements => by
    simp only [elementSteps, elementRanges, List.filterMap_append, ranges_entrySteps,
      Pattern.ranges_steps value, Pattern.ranges_elementSteps elements]
end

namespace ExtractionContext

variable (cx : ExtractionContext)

/-- Goes through steps up to the first range that is no text; gives this range and the names taken
by then. -/
def follow : List ExtractionStep → NameSet → Option Span × NameSet
  | [], names => (none, names)
  | .draw :: steps, names => follow steps (names.fresh cx.stem).2
  | .read range :: steps, names => match range.text? cx.source with
    | some _ => follow steps names
    | none => (some range, names)

variable {cx} {xs ys : List ExtractionStep} {names names' : NameSet}

theorem follow_append_of_none (h : cx.follow xs names = (none, names')) :
    cx.follow (xs ++ ys) names = cx.follow ys names' := by
  induction xs generalizing names with
  | nil => rw [← (Prod.mk.inj h).2]; rfl
  | cons x xs ih =>
    cases x with
    | draw => exact ih h
    | read range =>
      rw [follow] at h
      rw [List.cons_append, follow]
      split at h
      · exact ih h
      · cases h

theorem follow_append_of_some {bad : Span} (h : cx.follow xs names = (some bad, names')) :
    cx.follow (xs ++ ys) names = (some bad, names') := by
  induction xs generalizing names with
  | nil => cases h
  | cons x xs ih =>
    cases x with
    | draw => exact ih h
    | read range =>
      rw [follow] at h
      rw [List.cons_append, follow]
      split at h
      · exact ih h
      · exact h

theorem not_faulty_of_follow (h : cx.follow xs names = (none, names')) :
    ∀ range ∈ xs.filterMap (·.range?), ¬range.Faulty cx.source := by
  induction xs generalizing names with
  | nil => simp
  | cons x xs ih =>
    cases x with
    | draw => exact ih h
    | read range =>
      rw [follow] at h
      split at h
      · rename_i text htext
        have hrange : ¬range.Faulty cx.source := by
          rw [← Span.text?_eq_none_iff, htext]
          simp
        exact List.forall_mem_cons.2 ⟨hrange, ih h⟩
      · cases h

/-- Where it ends is the first range that is no text, and all temporaries before it are taken. -/
theorem exists_of_follow {bad : Span} (h : cx.follow xs names = (some bad, names')) :
    ∃ before after, xs = before ++ .read bad :: after ∧
      (∀ range ∈ before.filterMap (·.range?), ¬range.Faulty cx.source) ∧ bad.Faulty cx.source ∧
      ∃ drawn : List String, drawn.length = before.count .draw ∧
        NameSet.History cx.stem names (drawn.map .generated) names' := by
  induction xs generalizing names with
  | nil => cases h
  | cons x xs ih =>
    cases x with
    | draw =>
      obtain ⟨before, after, rfl, hbefore, hbad, drawn, hlength, hhistory⟩ := ih h
      exact ⟨.draw :: before, after, rfl, hbefore, hbad, (names.fresh cx.stem).1 :: drawn,
        by simp [hlength], .generated hhistory⟩
    | read range =>
      rw [follow] at h
      split at h
      · rename_i text htext
        obtain ⟨before, after, rfl, hbefore, hbad, drawn, hlength, hhistory⟩ := ih h
        have hrange : ¬range.Faulty cx.source := by
          rw [← Span.text?_eq_none_iff, htext]
          simp
        exact ⟨.read range :: before, after, rfl, List.forall_mem_cons.2 ⟨hrange, hbefore⟩, hbad,
          drawn, by simpa using hlength, hhistory⟩
      · rename_i htext
        obtain ⟨hrange, rfl⟩ := Prod.mk.inj h
        obtain rfl := Option.some.inj hrange
        exact ⟨[], xs, rfl, by simp, Span.text?_eq_none_iff.1 htext, [], rfl, .nil _⟩

end ExtractionContext

/-! ### Extraction by its steps -/

namespace Extracting

section

variable {cx : ExtractionContext} {α β : Type} {xs ys : List ExtractionStep}

/-- A part of extraction goes through these steps: it succeeds if it comes to their end, and
otherwise fails with the range where it stops. -/
def Takes (cx : ExtractionContext) (steps : List ExtractionStep) (m : Extracting α) : Prop :=
  ∀ s : ExtractionState, s.out.Simple →
    (∃ a t, Succeeds m s a t ∧ t.out.Simple ∧ cx.follow steps s.names = (none, t.names)) ∨
      ∃ bad t, m.run.run s = (.error (.invalidRange bad), t) ∧
        cx.follow steps s.names = (some bad, t.names)

theorem takes_pure (a : α) : Takes cx [] (pure a : Extracting α) :=
  fun s hs => .inl ⟨a, s, Succeeds.pure_iff.2 ⟨rfl, rfl⟩, hs, rfl⟩

theorem takes_bind {m : Extracting α} {f : α → Extracting β} (hm : Takes cx xs m)
    (hf : ∀ a, Takes cx ys (f a)) : Takes cx (xs ++ ys) (m >>= f) := by
  intro s hs
  rcases hm s hs with ⟨a, t, hrun, ht, hfollow⟩ | ⟨bad, t, hrun, hfollow⟩
  · rw [ExtractionContext.follow_append_of_none hfollow]
    rcases hf a t ht with ⟨b, u, hrun', hu, hfollow'⟩ | ⟨bad, u, hrun', hfollow'⟩
    · exact .inl ⟨b, u, Succeeds.bind_iff.2 ⟨a, t, hrun, hrun'⟩, hu, hfollow'⟩
    · have hrun : m.run.run s = (.ok a, t) := hrun
      exact .inr ⟨bad, u, by rw [run_bind, hrun]; exact hrun', hfollow'⟩
  · exact .inr ⟨bad, t, by rw [run_bind, hrun], ExtractionContext.follow_append_of_some hfollow⟩

/-- A step that is not seen from outside, and what follows. -/
theorem takes_behind {m : Extracting α} {f : α → Extracting β} (hm : Takes cx xs m)
    (hf : ∀ a, Takes cx [] (f a)) : Takes cx xs (m >>= f) := by
  have h := takes_bind hm hf
  rwa [List.append_nil] at h

theorem takes_bindLeaf (b : Binding) : Takes cx [] (Extracting.bind b) :=
  fun _ hs => .inl ⟨(), _, (bind_succeeds hs).2 rfl, Extraction.simple_bindings _, rfl⟩

theorem takes_defer (name : String) (span : Span) (temporary : String) (accessor : Accessor) :
    Takes cx [] (Extracting.defer ⟨.ident name span, temporary, accessor⟩) :=
  fun _ hs => .inl ⟨⟨⟩, _, Succeeds.modify_iff.2 rfl, Extraction.simple_defer hs _ _ _ _, rfl⟩

theorem takes_temporary (init : Initializer) :
    Takes cx [.draw] (Extracting.temporary cx.stem init) :=
  fun _ hs => .inl ⟨_, _, temporary_succeeds hs cx.stem init, Extraction.simple_bindings _, rfl⟩

end

end Extracting

namespace ExtractionContext

open Extracting

variable (cx : ExtractionContext)

theorem slice_takes (range : Span) : Takes cx [.read range] (cx.slice range) := by
  intro s hs
  cases htext : range.text? cx.source with
  | some text =>
    refine .inl ⟨String.ofList text, s, ?_, hs, by simp [follow, htext]⟩
    simp [slice, Span.textOrError, htext]
  | none =>
    refine .inr ⟨range, s, ?_, by simp [follow, htext]⟩
    simp only [slice, Span.textOrError, htext]
    rfl

theorem accessorOf_takes (key : PropertyKey) :
    Takes cx (key.ranges.map .read) (cx.accessorOf key) := by
  cases key with
  | ident | str | num => exact takes_pure _
  | computed range => exact takes_behind (slice_takes cx range) fun _ => takes_pure _

theorem guarded_takes (t : String) (default : Option Span) :
    Takes cx (guardSteps default) (cx.guarded t default) := by
  cases default with
  | none => exact takes_pure t
  | some range =>
    change Takes cx ([.read range] ++ [.draw]) _
    exact takes_bind (slice_takes cx range) fun text => takes_temporary _

theorem element_takes (base : String) (top : Bool) (accessor : Accessor) (value : Pattern)
    (default : Option Span) {inside : String → Extracting Unit}
    (hinside : ∀ t, Takes cx value.steps (inside t)) :
    Takes cx (value.entrySteps default ++ value.steps)
      (cx.element base top accessor value default inside) := by
  have htemporary : Takes cx ([.draw] ++ (guardSteps default ++ value.steps)) (do
      let t ← Extracting.temporary cx.stem (.read base accessor)
      inside (← cx.guarded t default)) :=
    takes_bind (takes_temporary _) fun t => takes_bind (guarded_takes cx t default) hinside
  cases value with
  | object span props => exact htemporary
  | array span elements rest => exact htemporary
  | ident name span =>
    cases default with
    | none =>
      cases top with
      | true => exact takes_bindLeaf _
      | false => exact takes_defer _ _ _ _
    | some range =>
      change Takes cx ([.read range] ++ [.draw]) _
      exact takes_bind (slice_takes cx range) fun text =>
        takes_behind (takes_temporary _) fun t => takes_bindLeaf _

theorem remainder_takes (base : String) (count : Nat) (value : Pattern)
    {inside : String → Extracting Unit} (hinside : ∀ t, Takes cx value.steps (inside t)) :
    Takes cx (value.entrySteps none ++ value.steps) (cx.remainder base count value inside) := by
  cases value with
  | ident => exact takes_bindLeaf _
  | object span props => exact takes_bind (takes_temporary _) hinside
  | array span elements rest => exact takes_bind (takes_temporary _) hinside

mutual
theorem parts_takes (base : String) (top : Bool) :
    ∀ p : Pattern, Takes cx p.steps (cx.parts base top p)
  | .ident .. => takes_bindLeaf _
  | .object _ props => properties_takes base top props
  | .array _ elements none => items_takes base top 0 elements
  | .array _ elements (some rest) =>
    takes_bind (items_takes base top 0 elements) fun _ =>
      remainder_takes cx base elements.length rest fun t => parts_takes t false rest

theorem properties_takes (base : String) (top : Bool) : ∀ props : List PatternProperty,
    Takes cx (Pattern.propertySteps props) (cx.properties base top props)
  | [] => takes_pure ()
  | .mk key value default :: props => by
    rw [Pattern.propertySteps, List.append_assoc]
    exact takes_bind (accessorOf_takes cx key) fun accessor =>
      takes_bind (element_takes cx base top accessor value default fun t =>
        parts_takes t false value) fun _ => properties_takes base top props

theorem items_takes (base : String) (top : Bool) : ∀ (index : Nat) (elements : List PatternElement),
    Takes cx (Pattern.elementSteps elements) (cx.items base top index elements)
  | _, [] => takes_pure ()
  | index, .hole :: elements => items_takes base top (index + 1) elements
  | index, .item value default :: elements =>
    takes_bind (element_takes cx base top (.index index) value default fun t =>
      parts_takes t false value) fun _ => items_takes base top (index + 1) elements
end

theorem extract_takes (pattern : Pattern) (source : SourceExpr) :
    Takes cx (source.steps ++ pattern.steps) (cx.extract pattern source) := by
  have hbase : Takes cx source.steps (cx.baseOf source) := by
    cases source with
    | reference text => exact takes_pure text
    | compound text => exact takes_temporary _
  exact takes_bind hbase fun base => parts_takes cx base true pattern

end ExtractionContext

theorem NameSet.History.taken_eq {stem : String} {s t : NameSet} {drawn : List String}
    (h : History stem s (drawn.map .generated) t) : t.taken = drawn.reverse ++ s.taken := by
  induction drawn generalizing s with
  | nil => cases h; rfl
  | cons name drawn ih =>
    cases h with
    | generated more => rw [ih more, NameSet.fresh_taken]; simp

/-- Extraction fails exactly if a key or a default of the pattern is no text of the source. It then
reports the first such range on the way through the pattern and has taken the temporaries that
were made up before it, no other name. -/
theorem ExtractionContext.extraction_fails_iff (cx : ExtractionContext) (pattern : Pattern)
    (source : SourceExpr) (names : NameSet) :
    ((∃ e, (cx.extractor.run pattern source names ()).1 = .error e) ↔
      ∃ range ∈ pattern.ranges, range.Faulty cx.source) ∧
    (∀ temporary, (cx.extractor.run pattern source names ()).1 ≠
      .error (.targetNotSimple temporary)) ∧
    ∀ e, (cx.extractor.run pattern source names ()).1 = .error e →
      ∃ before bad after, source.steps ++ pattern.steps = before ++ .read bad :: after ∧
        pattern.ranges =
          before.filterMap (·.range?) ++ bad :: after.filterMap (·.range?) ∧
        (∀ range ∈ before.filterMap (·.range?), ¬range.Faulty cx.source) ∧
        bad.Faulty cx.source ∧ e = .invalidRange bad ∧
        ∃ drawn : List String, drawn.length = before.count .draw ∧
          NameSet.History cx.stem names (drawn.map .generated)
            (cx.extractor.run pattern source names ()).2.1 ∧
          (cx.extractor.run pattern source names ()).2.1.taken = drawn.reverse ++ names.taken := by
  have hranges : (source.steps ++ pattern.steps).filterMap (·.range?) = pattern.ranges := by
    rw [List.filterMap_append, source.ranges_steps, pattern.ranges_steps, List.nil_append]
  rcases cx.extract_takes pattern source { names } (Extraction.simple_bindings []) with
    ⟨a, t, hrun, -, hfollow⟩ | ⟨bad, t, hrun, hfollow⟩
  · have hanswer : cx.extractor.run pattern source names () = (.ok t.out, t.names, ()) := by
      have hrun : (cx.extract pattern source).run.run { names } = (.ok a, t) := hrun
      simp only [ExtractionContext.extractor, hrun]
    have hall := not_faulty_of_follow hfollow
    rw [hranges] at hall
    rw [hanswer]
    refine ⟨⟨?_, ?_⟩, by simp, by simp⟩
    · rintro ⟨e, he⟩
      cases he
    · rintro ⟨range, hmem, hfaulty⟩
      exact absurd hfaulty (hall range hmem)
  · have hanswer : cx.extractor.run pattern source names () =
        (.error (.invalidRange bad), t.names, ()) := by
      simp only [ExtractionContext.extractor, hrun]
    obtain ⟨before, after, hsteps, hbefore, hbad, drawn, hlength, hhistory⟩ :=
      exists_of_follow hfollow
    have hsplit : pattern.ranges =
        before.filterMap (·.range?) ++ bad :: after.filterMap (·.range?) := by
      rw [← hranges, hsteps, List.filterMap_append]
      rfl
    rw [hanswer]
    refine ⟨⟨fun _ => ⟨bad, by simp [hsplit], hbad⟩, fun _ => ⟨_, rfl⟩⟩, by simp, ?_⟩
    intro e he
    obtain rfl := Except.error.inj he
    exact ⟨before, bad, after, hsteps, hsplit, hbefore, hbad, rfl, drawn, hlength, hhistory,
      hhistory.taken_eq⟩

/-- `{a: {b = ⟨9, 4⟩}}` in a text of six bytes. The temporary of the inner pattern is taken when the
inverted range is met, that of its default is not. -/
example : (((⟨"f({a})".toList, "$D"⟩ : ExtractionContext).extractor.run
    (.object ⟨2, 5⟩ [.mk (.ident "a")
      (.object ⟨2, 5⟩ [.mk (.ident "b") (.ident "b" ⟨3, 4⟩) (some ⟨9, 4⟩)]) none])
    (.argument 0) {} ()).2.1.taken) = ["$D0"] := by decide

end ParamLowering
