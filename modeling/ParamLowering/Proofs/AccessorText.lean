import ParamLowering.Extraction
import ParamLowering.Proofs.StringLiteral
set_option autoImplicit false

/-!
The texts of accessors, read as ES5.

A property is read by an identifier behind a dot, or by a string literal in brackets whose value is
its name. Only the separators U+2028 and U+2029, which quoted text leaves raw, spoil such a literal
for ES5; later editions read it. Texts of different properties differ, and from those of indices.
-/

namespace ParamLowering.Accessor

open Text Grammar StringLiteral

/-- A letter of ASCII, or one of the two signs that may begin an identifier. -/
def StartsIdentifier (c : Char) : Prop := c.isAlpha = true ∨ c = '$' ∨ c = '_'

/-- An identifier of ES5 that is written in ASCII. -/
def IsIdentifier (name : List Char) : Prop :=
  ∃ c cs, name = c :: cs ∧ StartsIdentifier c ∧
    ∀ d ∈ cs, StartsIdentifier d ∨ d.isDigit = true

theorem isNameStart_iff (c : Char) : isNameStart c = true ↔ StartsIdentifier c := by
  unfold isNameStart StartsIdentifier Char.isAlpha Char.isUpper Char.isLower
  simp only [Bool.or_eq_true, Bool.and_eq_true, decide_eq_true_eq, beq_iff_eq, Char.le_def,
    ge_iff_le]
  grind

theorem isNamePart_iff (c : Char) :
    isNamePart c = true ↔ StartsIdentifier c ∨ c.isDigit = true := by
  simp only [isNamePart, Bool.or_eq_true, isNameStart_iff, Char.isDigit, Bool.and_eq_true,
    decide_eq_true_eq, Char.le_def, ge_iff_le]

theorem isAsciiName_iff (name : List Char) : isAsciiName name = true ↔ IsIdentifier name := by
  cases name with
  | nil => simp [isAsciiName, IsIdentifier]
  | cons c cs =>
    simp [isAsciiName, IsIdentifier, isNameStart_iff, isNamePart_iff]

/-! ### The three forms -/

theorem toList_property_of_identifier {name : String} (h : IsIdentifier name.toList) :
    (property name).render.toList = '.' :: name.toList := by
  rw [render, if_pos ((isAsciiName_iff _).2 h), String.toList_append]
  rfl

theorem toList_property_of_not {name : String} (h : ¬ IsIdentifier name.toList) :
    (property name).render.toList = '[' :: (quoted name.toList ++ [']']) := by
  rw [render, if_neg fun hname => h ((isAsciiName_iff _).1 hname)]
  simp

/-- An index is written in digits. -/
theorem toList_index (i : Nat) :
    (index i).render.toList = '[' :: (Nat.toDigits 10 i ++ [']']) := by
  simp [render, toString, Nat.repr]

/-- A literal that later editions read. -/
theorem read?_newline_quoted (cs rest : List Char) :
    read? isNewline (quoted cs ++ rest) = some (utf16 cs, rest) := by
  rw [read?_quoted, any_exposed_newline]
  rfl

theorem property_injective {a b : String} (h : (property a).render = (property b).render) :
    a = b := by
  have hlist := congrArg String.toList h
  by_cases ha : IsIdentifier a.toList <;> by_cases hb : IsIdentifier b.toList
  · rw [toList_property_of_identifier ha, toList_property_of_identifier hb] at hlist
    exact String.toList_inj.1 (List.cons.inj hlist).2
  · rw [toList_property_of_identifier ha, toList_property_of_not hb] at hlist
    exact absurd (List.cons.inj hlist).1 (by decide)
  · rw [toList_property_of_not ha, toList_property_of_identifier hb] at hlist
    exact absurd (List.cons.inj hlist).1 (by decide)
  · rw [toList_property_of_not ha, toList_property_of_not hb] at hlist
    have hread := congrArg (read? isNewline) (List.cons.inj hlist).2
    rw [read?_newline_quoted, read?_newline_quoted] at hread
    exact String.toList_inj.1 (utf16_injective (Prod.mk.inj (Option.some.inj hread)).1)

theorem index_ne_property (i : Nat) (name : String) :
    (index i).render ≠ (property name).render := by
  intro h
  have hlist := congrArg String.toList h
  rw [toList_index] at hlist
  by_cases hname : IsIdentifier name.toList
  · rw [toList_property_of_identifier hname] at hlist
    exact absurd (List.cons.inj hlist).1 (by decide)
  · rw [toList_property_of_not hname, quoted] at hlist
    -- the first digit stands where the quote stands
    cases hdigits : Nat.toDigits 10 i with
    | nil => exact absurd hdigits Nat.toDigits_ne_nil
    | cons d ds =>
      rw [hdigits] at hlist
      have hd : d = '"' := (List.cons.inj (List.cons.inj hlist).2).1
      have hdigit : d.isDigit = true :=
        Nat.isDigit_of_mem_toDigits (by decide) (by decide) (hdigits ▸ List.mem_cons_self)
      rw [hd] at hdigit
      exact absurd hdigit (by decide)

/-! ### Properties read back -/

/-- A property is written as an identifier behind a dot or as quoted text in brackets. That text
ends at its closing quote, whatever follows, and its value is the name; no line break stands raw in
it but the separators of the name; and ES5 reads it if and only if there are none. Properties of
different names are written differently, and never like an index. -/
theorem property_reads_back (name : String) :
    (IsIdentifier name.toList ∧ (property name).render.toList = '.' :: name.toList ∨
      ∃ literal, ¬ IsIdentifier name.toList ∧
        (property name).render.toList = '[' :: (literal ++ [']']) ∧
        (∀ c, isLineBreak c = true →
          (c ∈ literal ↔ c ∈ name.toList ∧ isSeparator c = true)) ∧
        (∀ rest, read? isNewline (literal ++ rest) = some (utf16 name.toList, rest)) ∧
        ∀ rest, read? isLineBreak (literal ++ rest) =
          if name.toList.any isSeparator then none else some (utf16 name.toList, rest)) ∧
    (∀ other, (property other).render = (property name).render → other = name) ∧
    ∀ i, (index i).render ≠ (property name).render := by
  refine ⟨?_, fun other h => property_injective h, fun i => index_ne_property i name⟩
  by_cases hname : IsIdentifier name.toList
  · exact .inl ⟨hname, toList_property_of_identifier hname⟩
  · refine .inr ⟨quoted name.toList, hname, toList_property_of_not hname,
      fun c hc => mem_quoted_lineBreak hc _, read?_newline_quoted _, fun rest => ?_⟩
    rw [read?_quoted, any_exposed_lineBreak]

/-- The line separator is written as neither an identifier nor a literal that ES5 reads. -/
theorem property_separator_unreadable :
    ¬ (IsIdentifier "\u2028".toList ∧ (property "\u2028").render.toList = '.' :: "\u2028".toList ∨
      ∃ literal, (property "\u2028").render.toList = '[' :: (literal ++ [']']) ∧
        read? isLineBreak literal = some (utf16 "\u2028".toList, [])) := by
  have hrender : (property "\u2028").render.toList = ['[', '"', '\u2028', '"', ']'] := by decide
  rintro (⟨-, hdot⟩ | ⟨literal, hbrackets, hread⟩)
  · exact absurd (hrender.symm.trans hdot) (by decide)
  · have hinside : ['"', '\u2028', '"'] ++ [']'] = literal ++ [']'] :=
      (List.cons.inj (hrender.symm.trans hbrackets)).2
    rw [← List.append_cancel_right hinside] at hread
    exact absurd hread (by decide)

end ParamLowering.Accessor
