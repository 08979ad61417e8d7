import ParamLowering.Proofs.ListShape
set_option autoImplicit false

/-!
The comma behind a parameter list.

A removal up to the end of a list takes the comma behind it, but looks for it over White_Space
only. The grammar also skips comments and U+FEFF, so a comma that it reads may stay in the list.
-/

namespace ParamLowering

open ParamLowering.Grammar ParamLowering.Text

/-! ### Commas as tokens -/

/-- A comma is the next token at an offset, and `skipped` stands before it. -/
def NextIsComma (source : List Char) (offset : Nat) (skipped : List Char) : Prop :=
  ∃ after s, from? source offset = some (skipped ++ ',' :: after) ∧
    skipTrivia .blanks ⟨false, none⟩ (skipped ++ ',' :: after) offset =
      some (s, ⟨',' :: after, offset + byteLength skipped⟩)

theorem isBlank_comma : isBlank ',' = false := by decide

/-- No comment begins with a blank. -/
theorem skipTrivia_cons_of_isBlank {c : Char} (hc : isBlank c = true) (s : Skipped)
    (cs : List Char) (offset : Nat) : skipTrivia .blanks s (c :: cs) offset =
      if isLineBreak c then skipTrivia .blanks s.withBreak cs (offset + c.utf8Size)
      else if isSpace c then skipTrivia .blanks s cs (offset + c.utf8Size)
      else some (s, ⟨c :: cs, offset⟩) := by
  have hslash : c ≠ '/' := by rintro rfl; exact absurd hc (by decide)
  have hless : c ≠ '<' := by rintro rfl; exact absurd hc (by decide)
  have hdash : c ≠ '-' := by rintro rfl; exact absurd hc (by decide)
  have harrow : ['-', '-', '>'].isPrefixOf (c :: cs) = false := by
    simp [List.isPrefixOf, Ne.symm hdash]
  rw [skipTrivia]
  · simp [harrow]
  all_goals simp [hslash, hless]

theorem skipTrivia_comma (s : Skipped) (cs : List Char) (offset : Nat) :
    skipTrivia .blanks s (',' :: cs) offset = some (s, ⟨',' :: cs, offset⟩) := by
  rw [skipTrivia]
  · have hplain : isLineBreak ',' = false ∧ isSpace ',' = false := by decide
    simp [List.isPrefixOf, hplain]
  all_goals simp

/-- A comma behind nothing but blanks is the next token, if any comma is. -/
theorem eq_of_skipTrivia_comma {blanks skipped after rest : List Char} {s s' : Skipped}
    {offset stop : Nat} (hblanks : ∀ c ∈ blanks, isBlank c = true)
    (heq : skipped ++ ',' :: after = blanks ++ ',' :: rest)
    (h : skipTrivia .blanks s (skipped ++ ',' :: after) offset =
      some (s', ⟨',' :: after, stop⟩)) : skipped = blanks := by
  induction blanks generalizing skipped s offset with
  | nil =>
    cases skipped with
    | nil => rfl
    | cons c cs =>
      obtain ⟨rfl, -⟩ := List.cons.inj heq
      rw [List.cons_append, skipTrivia_comma] at h
      have hlength := congrArg (fun p => p.2.rest.length) (Option.some.inj h)
      simp only [List.length_cons, List.length_append] at hlength
      omega
  | cons b bs ih =>
    obtain ⟨hb, hbs⟩ := List.forall_mem_cons.1 hblanks
    cases skipped with
    | nil =>
      obtain ⟨rfl, -⟩ := List.cons.inj heq
      rw [isBlank_comma] at hb
      cases hb
    | cons c cs =>
      obtain ⟨rfl, htail⟩ := List.cons.inj heq
      rw [List.cons_append, skipTrivia_cons_of_isBlank hb] at h
      split at h
      · rw [ih hbs htail h]
      · split at h
        · rw [ih hbs htail h]
        · have hplace := congrArg (fun p => p.2.rest.head?) (Option.some.inj h)
          obtain rfl := Option.some.inj hplace
          rw [isBlank_comma] at hb
          cases hb

variable {source skipped : List Char} {offset : Nat}

/-- The comma that the grammar reads next is found exactly over blanks. -/
theorem commaAfter_iff_of_next (h : NextIsComma source offset skipped) (stop : Nat) :
    CommaAfter source offset stop ↔
      (∀ c ∈ skipped, isBlank c = true) ∧ stop = offset + byteLength skipped + 1 := by
  obtain ⟨after, s, hfrom, hskip⟩ := h
  constructor
  · rintro ⟨blanks, rest, hrest, hblanks, rfl⟩
    rw [hfrom] at hrest
    obtain rfl := eq_of_skipTrivia_comma hblanks (Option.some.inj hrest) hskip
    exact ⟨hblanks, rfl⟩
  · rintro ⟨hblanks, rfl⟩
    exact ⟨skipped, after, hfrom, hblanks, rfl⟩

theorem FunctionNode.GapEnd.eq_of_next {f : FunctionNode} {gapEnd : Nat} {last : Span}
    (h : f.GapEnd source gapEnd) (hlast : f.removed.getLast? = some last)
    (hnext : NextIsComma source last.stop skipped) : gapEnd =
      if skipped.all isBlank then last.stop + byteLength skipped + 1 else last.stop := by
  rw [GapEnd, hlast] at h
  by_cases hall : ∀ c ∈ skipped, isBlank c = true
  · rw [if_pos (List.all_eq_true.2 hall)]
    rcases h with hcomma | ⟨-, hnone⟩
    · exact ((commaAfter_iff_of_next hnext gapEnd).1 hcomma).2
    · exact absurd ((commaAfter_iff_of_next hnext _).2 ⟨hall, rfl⟩) (hnone _)
  · rw [if_neg (mt List.all_eq_true.1 hall)]
    rcases h with hcomma | ⟨heq, -⟩
    · exact absurd ((commaAfter_iff_of_next hnext gapEnd).1 hcomma).1 hall
    · exact heq

/-! ### Lowered lists -/

/-- The text up to a comma that is the next token. -/
theorem between_of_next (h : NextIsComma source offset skipped) :
    between source offset (offset + byteLength skipped + 1) = skipped ++ [','] ∧
      isBoundary source (offset + byteLength skipped + 1) = true := by
  obtain ⟨after, s, hfrom, -⟩ := h
  obtain ⟨before, rfl, rfl⟩ := from?_eq_some_iff.1 hfrom
  have hcomma : byteLength (skipped ++ [',']) = byteLength skipped + 1 := by
    rw [byteLength_append]
    rfl
  have hsource : before ++ (skipped ++ ',' :: after) = before ++ (skipped ++ [',']) ++ after := by
    simp
  rw [hsource, Nat.add_assoc, ← hcomma]
  exact ⟨between_eq, isBoundary_iff.2 ⟨_, after, rfl, by rw [byteLength_append]⟩⟩

section Pass

variable {σ : Type} {cx : PassContext σ} {f : FunctionNode} {st st' : PassState σ} {o : Outcome}

/-- A comma behind a list goes with its last element if only blanks stand before it. A comma
behind a comment stays, though the element before it is gone. -/
theorem lowerFunction_comma_text (hf : f.Placed cx.source) (hmodern : f.isModern = true)
    (h : Succeeds (lowerFunction cx f) st o st') {last : Span}
    (hlast : f.removed.getLast? = some last) (hnext : NextIsComma cx.source last.stop skipped)
    (hlist : last.stop + byteLength skipped + 1 ≤ f.body.span.start) :
    ∃ (names statements : List String), Edit.applyAll cx.source o.edits =
      .ok (between cx.source 0 f.listStart ++
        renamed cx.source f.listStart (f.keptPatterns.zip names) f.gapStart ++
        (if skipped.all isBlank then [] else skipped ++ [',']) ++
        between cx.source (last.stop + byteLength skipped + 1) (Layout.anchorOf f) ++
        statements.flatMap String.toList ++
        between cx.source (Layout.anchorOf f) (byteLength cx.source)) := by
  obtain ⟨layout, hlayout, ⟨hplain, -⟩ | ⟨hoist, rs, hrs, rfl⟩⟩ := lowerFunction_succeeds h
  · rw [hmodern] at hplain
    cases hplain
  · obtain ⟨names, gap, gapEnd, hlowered⟩ := exists_lowered hf hlayout hrs
    have hanchor : isBoundary cx.source (Layout.anchorOf f) = true := (ofFunction_eq_ok hlayout).2.1
    have htext := hlowered.applyAll_eq hf hanchor
    obtain ⟨hcomma, hboundary⟩ := between_of_next hnext
    have hbehind : between cx.source gapEnd (Layout.anchorOf f) =
        (if skipped.all isBlank then [] else skipped ++ [',']) ++
          between cx.source (last.stop + byteLength skipped + 1) (Layout.anchorOf f) := by
      have hend := hlowered.endsAt.eq_of_next hlast hnext
      split at hend
      · rw [hend, if_pos (by assumption), List.nil_append]
      · have hlt := hf.brace_lt_anchor
        rw [hend, if_neg (by assumption), ← hcomma]
        exact (between_append (hend ▸ hlowered.boundary) hboundary hanchor (by omega)
          (by omega)).symm
    refine ⟨names, rs.map (·.prologue), ?_⟩
    rw [htext, loweredText, hbehind]
    simp only [List.append_assoc]

end Pass

/-- `function f(a = 1 /* c */,) {}` -/
def commentedSource : List Char := "function f(a = 1 /* c */,) \x7b\x7d".toList

def commentedFunction : FunctionNode where
  id := ⟨0, 0⟩
  name := some "f"
  span := ⟨0, 29⟩
  line := 1
  params := [⟨.ident "a" ⟨11, 12⟩, ⟨11, 12⟩⟩]
  defaults := [⟨⟨15, 16⟩, none⟩]
  rest := none
  thisParam := none
  body := ⟨⟨27, 29⟩, none⟩

def commentedState : PassState Unit where
  scopes := ⟨[⟨.module, none, []⟩, ⟨.function, some 0, []⟩], [(⟨0, 0⟩, 1)]⟩
  names := { taken := ["f", "a"] }
  warnings := []
  extractor := ()

theorem lowerFunction_comma_commented : ∃ o st',
    Succeeds (lowerFunction (Run.passContext {} commentedSource) commentedFunction)
      commentedState o st' ∧
    commentedFunction.removed.getLast? = some ⟨11, 16⟩ ∧
    NextIsComma commentedSource 16 " /* c */".toList ∧
    ∃ (names statements : List String), Edit.applyAll commentedSource o.edits =
      .ok (between commentedSource 0 11 ++
        renamed commentedSource 11 (commentedFunction.keptPatterns.zip names) 11 ++
        (if " /* c */".toList.all isBlank then [] else " /* c */".toList ++ [',']) ++
        between commentedSource 25 28 ++ statements.flatMap String.toList ++
        between commentedSource 28 29) := by
  have hf : commentedFunction.Placed commentedSource :=
    ⟨by decide, by decide, by decide, by decide, ⟨_, _, rfl, by decide, by decide⟩, by decide⟩
  have hnext : NextIsComma commentedSource 16 " /* c */".toList := ⟨_, _, rfl, rfl⟩
  obtain ⟨o, st', h⟩ : ∃ o st', Succeeds (lowerFunction (Run.passContext {} commentedSource)
      commentedFunction) commentedState o st' := exists_succeeds (by decide +kernel)
  have htext := lowerFunction_comma_text hf rfl h rfl hnext (by decide)
  exact ⟨o, st', h, rfl, hnext, htext⟩

/-- The comma that stays behind a comment has nothing in front of it, so what comes out of a
program is none. -/
theorem lowerFile_output_unreadable :
    (SourceFile.isSupported "a.js" && Accessor.isAsciiName ({} : LoweringOptions).stem.toList) = true ∧
    (SourceFile.statements? "a.js" commentedSource).isSome = true ∧
    (Run.lowerFile { options := {} } "a.js" commentedSource).1.toOption.map (·.output) =
      some "function f( /* c */,) \x7bvar a = arguments[0]; if (a === void 0) a = 1;\x7d".toList ∧
    (SourceFile.statements? "a.js"
      "function f( /* c */,) \x7bvar a = arguments[0]; if (a === void 0) a = 1;\x7d".toList).isNone =
      true := by
  decide +kernel

end ParamLowering
