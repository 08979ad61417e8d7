import ParamLowering.Proofs.ParameterList
set_option autoImplicit false

/-!
What a layout says, exactly.

A function has a layout if no default is without a parameter and the text between the brace and
the anchor is there; and the layout is then the only one that fits a description which does not
mention how it is computed. A comma behind a list is looked for from a character boundary on only.
-/

namespace ParamLowering

namespace Text

/-- A part of a text covers the bytes from one offset to another. -/
def Occupies (cs part : List Char) (start stop : Nat) : Prop :=
  ∃ before after, cs = before ++ part ++ after ∧ byteLength before = start ∧
    byteLength before + byteLength part = stop

/-- A text ends in blanks, and no longer end of it consists of blanks. -/
structure LongestBlankEnd (cs blanks : List Char) : Prop where
  suffix : blanks <:+ cs
  blank : ∀ c ∈ blanks, isBlank c = true
  longest : ∀ s, s <:+ cs → (∀ c ∈ s, isBlank c = true) → s <:+ blanks

/-- Of the characters that start at an offset or behind it, `c` is the first that is no blank; it
starts at `place`. -/
def FirstVisible (cs : List Char) (offset : Nat) (c : Char) (place : Nat) : Prop :=
  ∃ before after, cs = before ++ c :: after ∧ byteLength before = place ∧ offset ≤ place ∧
    isBlank c = false ∧ ∀ pre d post, before = pre ++ d :: post → offset ≤ byteLength pre →
      isBlank d = true

/-! ### Blanks at an end -/

theorem trailingBlanks_append {kept blanks : List Char} (h : ∀ c ∈ blanks, isBlank c = true) :
    trailingBlanks (kept ++ blanks) = trailingBlanks kept ++ blanks := by
  rw [trailingBlanks, List.reverse_append, List.takeWhile_append_of_pos (by simpa using h),
    List.reverse_append, List.reverse_reverse]
  rfl

theorem trailingBlanks_longest (cs : List Char) : LongestBlankEnd cs (trailingBlanks cs) where
  suffix := List.rtakeWhile_suffix isBlank cs
  blank c hc := List.mem_rtakeWhile_imp (p := isBlank) (l := cs) hc
  longest := by
    rintro s ⟨kept, rfl⟩ hs
    rw [trailingBlanks_append hs]
    exact List.suffix_append _ _

theorem LongestBlankEnd.unique {cs blanks blanks' : List Char} (h : LongestBlankEnd cs blanks)
    (h' : LongestBlankEnd cs blanks') : blanks = blanks' :=
  (h'.longest _ h.suffix h.blank).eq_of_length_le (h.longest _ h'.suffix h'.blank).length_le

/-! ### Places in a text -/

theorem Occupies.unique {cs part part' : List Char} {start stop : Nat}
    (h : Occupies cs part start stop) (h' : Occupies cs part' start stop) : part = part' :=
  Option.some.inj ((slice?_eq_some_iff.2 h).symm.trans (slice?_eq_some_iff.2 h'))

/-- The text up to the end of a part. -/
theorem Occupies.upto {cs kept blanks : List Char} {start stop : Nat}
    (h : Occupies cs (kept ++ blanks) start stop) :
    ∃ head, Occupies cs (head ++ blanks) 0 stop := by
  obtain ⟨before, after, rfl, rfl, rfl⟩ := h
  exact ⟨before ++ kept, [], after, by simp, rfl, by simp [byteLength]⟩

/-- From a boundary on, the first visible character is found behind blanks. -/
theorem firstVisible_iff {cs : List Char} {offset place : Nat} {c : Char}
    (hoffset : isBoundary cs offset = true) : FirstVisible cs offset c place ↔
      ∃ blanks rest, from? cs offset = some (blanks ++ c :: rest) ∧
        (∀ d ∈ blanks, isBlank d = true) ∧ isBlank c = false ∧
        place = offset + byteLength blanks := by
  obtain ⟨upto, rest, hcs, rfl⟩ := isBoundary_iff.1 hoffset
  constructor
  · rintro ⟨before, after, hbefore, rfl, hle, hc, hblanks⟩
    obtain ⟨blanks, rfl, hrest⟩ := exists_append_of_byteLength_le (hcs.symm.trans hbefore) hle
    refine ⟨blanks, after, from?_eq_some_iff.2 ⟨upto, hrest ▸ hcs, rfl⟩, fun d hd => ?_, hc,
      byteLength_append upto blanks⟩
    obtain ⟨pre, post, rfl⟩ := List.append_of_mem hd
    exact hblanks (upto ++ pre) d post (by simp) (by simp)
  · rintro ⟨blanks, more, hfrom, hblanks, hc, rfl⟩
    obtain ⟨upto', hcs', hupto⟩ := from?_eq_some_iff.1 hfrom
    refine ⟨upto' ++ blanks, more, by simpa using hcs', by simp [hupto], by omega, hc, ?_⟩
    intro pre d post heq hle
    obtain ⟨mid, -, hmid⟩ := exists_append_of_byteLength_le heq (hupto ▸ hle)
    exact hblanks d (hmid ▸ by simp)

end Text

open Text

/-- The ranges of the list elements that exist at run time. -/
def FunctionNode.arguments (f : FunctionNode) : List Span :=
  f.plain.map (·.span) ++ f.defaulted.flatMap (fun d => [d.1.span, d.2.span]) ++
    (f.rest.map (·.span)).toList

namespace Layout

/-- What a layout says of a function and its text. -/
structure Describes (layout : Layout) (f : FunctionNode) (source : List Char) : Prop where
  paramCount : layout.paramCount = f.params.length
  defaultCount : layout.defaultCount = f.defaults.length
  /-- The numbers of the parameters are those without a default and then, without a gap, those with
  one. -/
  ranges : List.range layout.paramCount = List.range layout.firstDefault ++
    (List.range layout.defaultCount).map (layout.firstDefault + ·)
  aligned : ∀ k d, f.defaults[k]? = some d → ∃ p, f.params[layout.firstDefault + k]? = some p ∧
    f.defaulted[k]? = some (p, d)
  rest : layout.rest = f.rest
  anchor : layout.anchor = anchorOf f
  indent : ∃ between, Occupies source between (afterBrace f) layout.anchor ∧
    LongestBlankEnd between layout.indent.toList
  /-- The indent cuts the text in front of the anchor in one place only. -/
  cut : ∃! head, Occupies source (head ++ layout.indent.toList) 0 layout.anchor
  listEnd : layout.listEnd = f.arguments.getLast?.map (·.stop)
  trailingComma : ∀ comma, layout.trailingComma = some comma ↔
    ∃ stop, layout.listEnd = some stop ∧ isBoundary source stop = true ∧
      FirstVisible source stop ',' comma.start ∧ comma.stop = comma.start + 1

variable {f : FunctionNode} {source : List Char} {layout layout' : Layout}

/-! ### The parts of a layout -/

theorem range_eq_append_iff {n k m : Nat} :
    List.range n = List.range k ++ (List.range m).map (k + ·) ↔ n = k + m := by
  rw [← List.range_add]
  exact ⟨fun h => by simpa using congrArg List.length h, congrArg List.range⟩

/-- Defaults belong to the last parameters, in order. -/
theorem getElem?_defaulted (hcount : f.defaults.length ≤ f.params.length) {k : Nat}
    {d : DefaultValue} (hd : f.defaults[k]? = some d) :
    ∃ p, f.params[f.params.length - f.defaults.length + k]? = some p ∧
      f.defaulted[k]? = some (p, d) := by
  obtain ⟨hk, -⟩ := List.getElem?_eq_some_iff.1 hd
  have hp : f.params.length - f.defaults.length + k < f.params.length := by omega
  refine ⟨_, List.getElem?_eq_getElem hp, List.getElem?_zip_eq_some.2 ⟨?_, hd⟩⟩
  rw [List.getElem?_drop, List.getElem?_eq_getElem hp]

/-- The end of the list is the end of its last element. -/
theorem lastEnd_eq (hcount : f.defaults.length ≤ f.params.length) :
    lastEnd f = f.arguments.getLast?.map (·.stop) := by
  have hparams := FunctionNode.params_eq hcount
  rw [lastEnd, FunctionNode.arguments, ← FunctionNode.map_snd_defaulted hcount]
  cases f.rest with
  | some rest => simp
  | none =>
    rcases List.eq_nil_or_concat f.defaulted with hnil | ⟨ds, d, hds⟩
    · rw [hnil, List.map_nil, List.append_nil] at hparams
      simp [hnil, hparams, Function.comp_def]
    · simp [hds]

theorem commaAfter_iff {offset : Nat} {comma : Span} :
    commaAfter source offset = some comma ↔ isBoundary source offset = true ∧
      FirstVisible source offset ',' comma.start ∧ comma.stop = comma.start + 1 := by
  constructor
  · intro h
    obtain ⟨after, hafter, -⟩ := Option.bind_eq_some_iff.1 h
    obtain ⟨before, hsource, hbefore⟩ := from?_eq_some_iff.1 hafter
    have hoffset := isBoundary_iff.2 ⟨before, after, hsource, hbefore⟩
    obtain ⟨blanks, rest, hfrom, hblanks, -⟩ := commaAfter_eq_some h
    rw [commaAfter_of_blanks hfrom hblanks] at h
    obtain rfl := Option.some.inj h
    exact ⟨hoffset, (firstVisible_iff hoffset).2 ⟨blanks, rest, hfrom, hblanks, by decide, rfl⟩, rfl⟩
  · rintro ⟨hoffset, hfirst, hstop⟩
    obtain ⟨blanks, rest, hfrom, hblanks, -, hstart⟩ := (firstVisible_iff hoffset).1 hfirst
    rw [commaAfter_of_blanks hfrom hblanks, ← hstart, ← hstop]

/-! ### The whole of it -/

/-- The two reasons for which a function has no layout. -/
theorem exists_ofFunction_iff (f : FunctionNode) (source : List Char) :
    (∃ layout, ofFunction f source = .ok layout) ↔ f.defaults.length ≤ f.params.length ∧
      ∃ between, Occupies source between (afterBrace f) (anchorOf f) := by
  have hslice : ∀ between, Span.text? ⟨afterBrace f, anchorOf f⟩ source = some between ↔
      Occupies source between (afterBrace f) (anchorOf f) := fun _ => slice?_eq_some_iff
  simp only [ofFunction, ← hslice]
  by_cases hcount : f.params.length < f.defaults.length
  · simp [hcount, Nat.not_le.2 hcount]
  · cases Span.text? ⟨afterBrace f, anchorOf f⟩ source <;> simp [hcount, Nat.not_lt.1 hcount]

theorem describes_of_ofFunction (h : ofFunction f source = .ok layout) :
    layout.Describes f source := by
  obtain ⟨hcount, between, hbetween⟩ := (exists_ofFunction_iff f source).1 ⟨layout, h⟩
  obtain ⟨-, -, -, rfl⟩ := ofFunction_eq_ok h
  have hindent : (f.indent source).toList = trailingBlanks between := by
    have hslice := slice?_eq_some_iff.2 hbetween
    rw [FunctionNode.indent, Text.between, hslice, String.toList_ofList]
    rfl
  have hlongest : LongestBlankEnd between (f.indent source).toList :=
    hindent ▸ trailingBlanks_longest between
  exact {
    paramCount := rfl
    defaultCount := rfl
    ranges := range_eq_append_iff.2 (by dsimp only; omega)
    aligned := fun _ _ => getElem?_defaulted hcount
    rest := rfl
    anchor := rfl
    indent := ⟨between, hbetween, hlongest⟩
    cut := by
      obtain ⟨kept, hkept⟩ := hlongest.suffix
      obtain ⟨head, hhead⟩ := (hkept ▸ hbetween).upto
      exact ⟨head, hhead, fun head' hhead' => List.append_cancel_right (hhead'.unique hhead)⟩
    listEnd := lastEnd_eq hcount
    trailingComma := fun comma => by
      dsimp only
      rw [Option.bind_eq_some_iff]
      simp only [commaAfter_iff] }

theorem Describes.length_params (h : layout.Describes f source) :
    f.params.length = layout.firstDefault + f.defaults.length := by
  have hlength := range_eq_append_iff.1 h.ranges
  rwa [h.paramCount, h.defaultCount] at hlength

/-- No two layouts fit one function and one text. -/
theorem Describes.unique (h : layout.Describes f source) (h' : layout'.Describes f source) :
    layout = layout' := by
  obtain ⟨between, hbetween, hindent⟩ := h.indent
  obtain ⟨between', hbetween', hindent'⟩ := h'.indent
  rw [h.anchor] at hbetween
  rw [h'.anchor] at hbetween'
  obtain rfl := hbetween.unique hbetween'
  have hstart : layout.firstDefault = layout'.firstDefault :=
    Nat.add_right_cancel (h.length_params.symm.trans h'.length_params)
  have hcomma : layout.trailingComma = layout'.trailingComma := Option.ext fun comma => by
    rw [h.trailingComma, h'.trailingComma, h.listEnd, h'.listEnd]
  cases layout
  cases layout'
  rw [Layout.mk.injEq]
  exact ⟨h.paramCount.trans h'.paramCount.symm, h.defaultCount.trans h'.defaultCount.symm,
    hstart, h.rest.trans h'.rest.symm, h.anchor.trans h'.anchor.symm,
    String.toList_inj.1 (hindent.unique hindent'), h.listEnd.trans h'.listEnd.symm, hcomma⟩

theorem Describes.exists_ofFunction (h : layout.Describes f source) :
    ∃ layout', ofFunction f source = .ok layout' := by
  obtain ⟨between, hbetween, -⟩ := h.indent
  have hcount : f.defaults.length ≤ f.params.length := h.length_params ▸ Nat.le_add_left _ _
  exact (exists_ofFunction_iff f source).2 ⟨hcount, between, h.anchor ▸ hbetween⟩

/-- A function has a layout if and only if it has no more defaults than parameters and there is a
text between the brace and the anchor; and the layout is the one that fits the description. -/
theorem ofFunction_exact (f : FunctionNode) (source : List Char) :
    ((∃ layout, ofFunction f source = .ok layout) ↔ f.defaults.length ≤ f.params.length ∧
      ∃ between, Occupies source between (afterBrace f) (anchorOf f)) ∧
    ∀ layout, ofFunction f source = .ok layout ↔ layout.Describes f source := by
  refine ⟨exists_ofFunction_iff f source, fun layout => ⟨describes_of_ofFunction, fun h => ?_⟩⟩
  obtain ⟨layout', hlayout'⟩ := h.exists_ofFunction
  rw [hlayout', (describes_of_ofFunction hlayout').unique h]

/-- The text `function f(a ,) {}` with a blank of two bytes in front of the comma. -/
def wideBlankSource : List Char := "function f(a\u00a0,) \x7b\x7d".toList

/-- A function whose only parameter ends in the middle of that blank. -/
def wideBlankFunction : FunctionNode where
  id := ⟨0, 0⟩
  name := some "f"
  span := ⟨0, 19⟩
  line := 1
  params := [⟨.ident "a" ⟨11, 12⟩, ⟨11, 13⟩⟩]
  defaults := []
  rest := none
  thisParam := none
  body := ⟨⟨17, 19⟩, none⟩

/-- A comma that is the first visible character behind the end of a list is not found if that end
lies inside a character. -/
theorem trailingComma_missed_inside_character :
    ¬ ∀ (f : FunctionNode) (source : List Char) (layout : Layout),
      ofFunction f source = .ok layout →
        (layout.trailingComma.isSome = true ↔ ∃ stop place, layout.listEnd = some stop ∧
          FirstVisible source stop ',' place) := by
  intro h
  have hlayout : ofFunction wideBlankFunction wideBlankSource = .ok {
      paramCount := 1, defaultCount := 0, firstDefault := 1, rest := none, anchor := 18
      indent := "", listEnd := some 13, trailingComma := none } := by decide
  have hvisible : FirstVisible wideBlankSource 13 ',' 14 := by
    refine ⟨"function f(a\u00a0".toList, ") \x7b\x7d".toList, by decide, by decide, by decide,
      by decide, fun pre d post heq hle => ?_⟩
    -- the blank begins in front of the end of the list, and nothing else stands behind the name
    obtain ⟨mid, -, hmid⟩ := exists_append_of_byteLength_le
      (show "function f(a".toList ++ ['\u00a0'] = pre ++ d :: post from heq)
      (Nat.le_trans (by decide) hle)
    have hd : d = '\u00a0' := by
      have hmem : d ∈ ['\u00a0'] := hmid ▸ by simp
      simpa using hmem
    subst hd
    decide
  exact absurd ((h _ _ _ hlayout).2 ⟨13, 14, rfl, hvisible⟩) (by decide)

end Layout

end ParamLowering
