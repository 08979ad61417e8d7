import Mathlib.Data.List.DropRight
import ParamLowering.Layout
import ParamLowering.Proofs.Boundary
set_option autoImplicit false

/-!
Parameter lists in a text: the ranges of their elements, which elements keep their slots, and
where the gap ends that the others leave.
-/

namespace ParamLowering

namespace FunctionNode

variable (f : FunctionNode)

/-- The parameters without a default. -/
def plain : List Param := f.params.take (f.params.length - f.defaults.length)

/-- The parameters with a default. -/
def defaulted : List (Param × DefaultValue) :=
  (f.params.drop (f.params.length - f.defaults.length)).zip f.defaults

/-- The ranges of all list elements; a default is an element after its parameter. -/
def elements : List Span :=
  f.thisParam.toList ++ f.plain.map (·.span) ++
    f.defaulted.flatMap (fun d => [d.1.span, d.2.span]) ++ (f.rest.map (·.span)).toList

/-- The parameters that keep their slots: those up to the last name without a default. -/
def kept : List Param := f.plain.rdropWhile (·.pattern.isDestructuring)

/-- The patterns after the last name without a default. -/
def dropped : List Param := f.plain.rtakeWhile (·.pattern.isDestructuring)

/-- The patterns among the parameters that keep their slots. -/
def keptPatterns : List Param := f.kept.filter (·.pattern.isDestructuring)

/-- The ranges that leave the list, each with its default. -/
def removed : List Span :=
  f.dropped.map (·.span) ++ f.defaulted.map (fun d => ⟨d.1.span.start, d.2.span.stop⟩) ++
    (f.rest.map (·.span)).toList

def listStart : Nat := (f.elements.head?.map (·.start)).getD f.body.span.start

/-- The end of the last element that keeps its slot. -/
def keptEnd? : Option Nat := (f.kept.getLast?.map (·.span.stop)).or (f.thisParam.map (·.stop))

/-- Where the gap begins. -/
def gapStart : Nat := f.keptEnd?.getD f.listStart

/-- The blanks right before the anchor. -/
def indent (source : List Char) : String :=
  String.ofList (Text.trailingBlanks
    (Text.between source (Layout.afterBrace f) (Layout.anchorOf f)))

end FunctionNode

/-- A comma stands after an offset, with nothing but blanks between; `stop` is its end. -/
def CommaAfter (source : List Char) (offset stop : Nat) : Prop :=
  ∃ blanks rest, Text.from? source offset = some (blanks ++ ',' :: rest) ∧
    (∀ c ∈ blanks, Text.isBlank c = true) ∧ stop = offset + Text.byteLength blanks + 1

/-- Where the gap ends: with the last element, or with the comma after it. -/
def FunctionNode.GapEnd (f : FunctionNode) (source : List Char) (stop : Nat) : Prop :=
  match f.removed.getLast? with
  | none => stop = f.gapStart
  | some last => CommaAfter source last.stop stop ∨
    (stop = last.stop ∧ ∀ n, ¬ CommaAfter source last.stop n)

/-- The list and the body of a function stand in a text as a parser finds them. -/
structure FunctionNode.InText (f : FunctionNode) (source : List Char) : Prop where
  nonempty : ∀ s ∈ f.elements, s.start < s.stop
  boundaries : ∀ s ∈ f.elements, Text.isBoundary source s.start = true ∧
    Text.isBoundary source s.stop = true
  inOrder : f.elements.Pairwise fun a b => a.stop ≤ b.start
  beforeBody : ∀ s ∈ f.elements, s.stop ≤ f.body.span.start
  brace : ∃ after, Text.from? source f.body.span.start = some ('{' :: after)
  statement : ∀ s ∈ f.body.firstStatement, f.body.span.start < s.start

/-- The same for a body that perhaps begins with a comment in the manner of markup, which counts as
part of the brace behind it. -/
structure FunctionNode.Placed (f : FunctionNode) (source : List Char) : Prop where
  nonempty : ∀ s ∈ f.elements, s.start < s.stop
  boundaries : ∀ s ∈ f.elements, Text.isBoundary source s.start = true ∧
    Text.isBoundary source s.stop = true
  inOrder : f.elements.Pairwise fun a b => a.stop ≤ b.start
  beforeBody : ∀ s ∈ f.elements, s.stop ≤ f.body.span.start
  brace : ∃ c after, Text.from? source f.body.span.start = some (c :: after) ∧
    Text.isBlank c = false ∧ c ≠ ','
  statement : ∀ s ∈ f.body.firstStatement, f.body.span.start < s.start

theorem FunctionNode.InText.placed {f : FunctionNode} {source : List Char} (h : f.InText source) :
    f.Placed source where
  nonempty := h.nonempty
  boundaries := h.boundaries
  inOrder := h.inOrder
  beforeBody := h.beforeBody
  brace := by
    obtain ⟨after, hafter⟩ := h.brace
    exact ⟨'{', after, hafter, by decide, by decide⟩
  statement := h.statement

/-! ### Commas -/

theorem commaAfter_of_blanks {source blanks rest : List Char} {offset : Nat}
    (h : Text.from? source offset = some (blanks ++ ',' :: rest))
    (hblanks : ∀ c ∈ blanks, Text.isBlank c = true) :
    Layout.commaAfter source offset =
      some ⟨offset + Text.byteLength blanks, offset + Text.byteLength blanks + 1⟩ := by
  have hcomma : Text.isBlank ',' = false := by decide
  have hdrop : Text.dropBlanks (blanks ++ ',' :: rest) = ',' :: rest := by
    rw [Text.dropBlanks, List.dropWhile_append_of_pos hblanks, List.dropWhile_cons, hcomma]
    rfl
  have hleading : Text.leadingBlanks (blanks ++ ',' :: rest) = blanks := by
    rw [Text.leadingBlanks, List.takeWhile_append_of_pos hblanks, List.takeWhile_cons, hcomma]
    simp
  simp [Layout.commaAfter, h, hdrop, hleading]

theorem commaAfter_eq_some {source : List Char} {offset : Nat} {comma : Span}
    (h : Layout.commaAfter source offset = some comma) : CommaAfter source offset comma.stop := by
  obtain ⟨after, hafter, h⟩ := Option.bind_eq_some_iff.1 h
  split at h
  · rename_i rest hdrop
    obtain rfl := Option.some.inj h
    refine ⟨Text.leadingBlanks after, rest, ?_, ?_, rfl⟩
    · rw [hafter, ← hdrop]
      exact congrArg some (List.takeWhile_append_dropWhile).symm
    · exact fun c hc => (List.mem_takeWhile_imp hc)
  · cases h

theorem commaAfter_eq_none {source : List Char} {offset : Nat}
    (h : Layout.commaAfter source offset = none) (stop : Nat) :
    ¬ CommaAfter source offset stop := by
  rintro ⟨blanks, rest, hfrom, hblanks, -⟩
  rw [commaAfter_of_blanks hfrom hblanks] at h
  cases h

theorem CommaAfter.lt {source : List Char} {offset stop : Nat}
    (h : CommaAfter source offset stop) : offset < stop := by
  obtain ⟨blanks, rest, -, -, rfl⟩ := h
  omega

theorem CommaAfter.isBoundary {source : List Char} {offset stop : Nat}
    (h : CommaAfter source offset stop) : Text.isBoundary source stop = true := by
  obtain ⟨blanks, rest, hfrom, -, rfl⟩ := h
  obtain ⟨before, rfl, rfl⟩ := Text.from?_eq_some_iff.1 hfrom
  refine Text.isBoundary_iff.2 ⟨before ++ blanks ++ [','], rest, by simp, ?_⟩
  have hcomma : Text.byteLength [','] = 1 := by decide
  simp only [Text.byteLength_append, hcomma]

/-- A comma after the list comes before the body, which begins with neither blank nor comma. -/
theorem CommaAfter.le_brace {source after : List Char} {c : Char} {offset stop brace : Nat}
    (h : CommaAfter source offset stop) (hle : offset ≤ brace)
    (hbrace : Text.from? source brace = some (c :: after)) (hblank : Text.isBlank c = false)
    (hcomma : c ≠ ',') : stop ≤ brace := by
  obtain ⟨blanks, rest, hfrom, hblanks, rfl⟩ := h
  obtain ⟨before, rfl, rfl⟩ := Text.from?_eq_some_iff.1 hfrom
  obtain ⟨upto, hupto, rfl⟩ := Text.from?_eq_some_iff.1 hbrace
  obtain ⟨mid, rfl, hmid⟩ := Text.exists_append_of_byteLength_le hupto hle
  rw [Text.byteLength_append]
  obtain ⟨more, rfl, hmore⟩ | ⟨more, rfl, hmore⟩ := List.append_eq_append_iff.1 hmid
  · -- the comma stands in `more`, before the brace
    cases more with
    | nil => exact absurd (congrArg List.head? hmore) (by simpa using Ne.symm hcomma)
    | cons d more =>
      have hd : d = ',' := by simpa using (congrArg List.head? hmore).symm
      have hsize := d.utf8Size_pos
      simp only [Text.byteLength_append, Text.byteLength]
      omega
  · cases more with
    | nil => exact absurd (congrArg List.head? hmore) (by simpa using hcomma)
    | cons d more =>
      obtain rfl : c = d := by simpa using congrArg List.head? hmore
      have hd := hblanks c (by simp)
      rw [hblank] at hd
      cases hd

/-! ### Layout -/

theorem slice?_boundaries {source part : List Char} {i j : Nat}
    (h : Text.slice? source i j = some part) :
    Text.isBoundary source i = true ∧ Text.isBoundary source j = true ∧ i ≤ j := by
  obtain ⟨before, after, rfl, rfl, rfl⟩ := Text.slice?_eq_some_iff.1 h
  refine ⟨Text.isBoundary_iff.2 ⟨before, part ++ after, by simp, rfl⟩, ?_, by omega⟩
  exact Text.isBoundary_iff.2 ⟨before ++ part, after, rfl, by simp⟩

/-- What it means that a function has a layout, and what the layout is. -/
theorem ofFunction_eq_ok {f : FunctionNode} {source : List Char} {layout : Layout}
    (h : Layout.ofFunction f source = .ok layout) :
    f.defaults.length ≤ f.params.length ∧
    Text.isBoundary source (Layout.anchorOf f) = true ∧
    Layout.afterBrace f ≤ Layout.anchorOf f ∧
    layout = {
      paramCount := f.params.length
      defaultCount := f.defaults.length
      firstDefault := f.params.length - f.defaults.length
      rest := f.rest
      anchor := Layout.anchorOf f
      indent := f.indent source
      listEnd := Layout.lastEnd f
      trailingComma := (Layout.lastEnd f).bind (Layout.commaAfter source) } := by
  unfold Layout.ofFunction at h
  split at h
  · cases h
  · rename_i hcount
    split at h
    · cases h
    · rename_i part hpart
      obtain ⟨-, hanchor, hle⟩ := slice?_boundaries hpart
      refine ⟨by omega, hanchor, hle, ?_⟩
      rw [← Except.ok.inj h, FunctionNode.indent, Text.between]
      have hslice : Text.slice? source (Layout.afterBrace f) (Layout.anchorOf f) = some part :=
        hpart
      rw [hslice]
      rfl

namespace FunctionNode

variable {f : FunctionNode}

theorem kept_append_dropped (f : FunctionNode) : f.kept ++ f.dropped = f.plain :=
  List.rdropWhile_append_rtakeWhile

theorem isDestructuring_of_mem_dropped {p : Param} (h : p ∈ f.dropped) :
    p.pattern.isDestructuring = true :=
  List.mem_rtakeWhile_imp (p := fun p : Param => p.pattern.isDestructuring) h

theorem kept_eq_nil_or (f : FunctionNode) :
    f.kept = [] ∨ ∃ pre last, f.kept = pre ++ [last] ∧ last.pattern.isDestructuring = false := by
  by_cases h : f.kept = []
  · exact .inl h
  · right
    refine ⟨f.kept.dropLast, f.kept.getLast h, (List.dropLast_append_getLast h).symm, ?_⟩
    have hlast := List.rdropWhile_last_not (fun p : Param => p.pattern.isDestructuring) f.plain h
    exact eq_false_of_ne_true hlast

theorem map_fst_defaulted (h : f.defaults.length ≤ f.params.length) :
    f.defaulted.map (·.1) = f.params.drop (f.params.length - f.defaults.length) :=
  List.map_fst_zip (by rw [List.length_drop]; omega)

theorem map_snd_defaulted (h : f.defaults.length ≤ f.params.length) :
    f.defaulted.map (·.2) = f.defaults :=
  List.map_snd_zip (by rw [List.length_drop]; omega)

theorem params_eq (h : f.defaults.length ≤ f.params.length) :
    f.params = f.plain ++ f.defaulted.map (·.1) := by
  rw [map_fst_defaulted h, plain, List.take_append_drop]

end FunctionNode

end ParamLowering
