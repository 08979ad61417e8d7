import Mathlib.Data.List.Basic
import ParamLowering.Grammar.Character
import ParamLowering.Text.Quoted
set_option autoImplicit false

/-!
String literals of ES5, and quoted text read as one.

The value of a literal is a list of UTF-16 units. Quoted text reads back as the text it was made
from, except where a character that stands for itself may not stand raw in a literal. In ES5 these
are the separators U+2028 and U+2029; later editions refuse line feeds and carriage returns only.
-/

namespace ParamLowering

namespace Text

/-- The UTF-16 units of a character. -/
def units (c : Char) : List Nat :=
  if c.toNat < 0x10000 then [c.toNat]
  else [0xD800 + (c.toNat - 0x10000) / 0x400, 0xDC00 + (c.toNat - 0x10000) % 0x400]

def utf16 (cs : List Char) : List Nat := cs.flatMap units

theorem toNat_ranges (c : Char) : c.toNat < 0xD800 ∨ 0xDFFF < c.toNat ∧ c.toNat < 0x110000 :=
  c.valid

/-- The units of one character never begin those of another. -/
theorem units_append_injective {c d : Char} {us vs : List Nat}
    (h : units c ++ us = units d ++ vs) : c = d ∧ us = vs := by
  have hc := toNat_ranges c
  have hd := toNat_ranges d
  have hnat : c.toNat = d.toNat ∧ us = vs := by
    rw [units, units] at h
    by_cases hlow : c.toNat < 0x10000 <;> by_cases hlow' : d.toNat < 0x10000
    all_goals
      simp only [hlow, hlow', if_true, if_false, List.cons_append, List.nil_append,
        List.cons.injEq] at h
    · exact h
    -- a surrogate is no character
    · omega
    · omega
    · exact ⟨by omega, h.2.2⟩
  exact ⟨Char.toNat_inj.1 hnat.1, hnat.2⟩

theorem utf16_injective {cs ds : List Char} (h : utf16 cs = utf16 ds) : cs = ds := by
  have hne : ∀ c : Char, units c ≠ [] := fun c => by
    rw [units]
    split <;> simp
  induction cs generalizing ds with
  | nil =>
    cases ds with
    | nil => rfl
    | cons d ds => exact absurd (List.append_eq_nil_iff.1 h.symm).1 (hne d)
  | cons c cs ih =>
    cases ds with
    | nil => exact absurd (List.append_eq_nil_iff.1 h).1 (hne c)
    | cons d ds =>
      obtain ⟨rfl, hmore⟩ := units_append_injective h
      rw [ih hmore]

end Text

namespace StringLiteral

open Text Grammar

/-! ### Reading literals -/

/-- The number that hexadecimal digits write. -/
def hexNumber? (digits : List Char) : Option Nat :=
  digits.foldlM (fun n c => (digitValue? 16 c).map (16 * n + ·)) 0

/-- The units that one character behind a backslash stands for; nothing, where more has to follow
or the escape is none. `next` is the character behind it. -/
def escapeUnits? (c : Char) (next : Option Char) : Option (List Nat) :=
  match c with
  | 'b' => some [0x08]
  | 't' => some [0x09]
  | 'n' => some [0x0A]
  | 'v' => some [0x0B]
  | 'f' => some [0x0C]
  | 'r' => some [0x0D]
  | 'x' | 'u' => none
  | '0' => if next.any isDigit then none else some [0]
  | c => if isDigit c then none else some (units c)

/-- A reading with units put in front. -/
def prepend (us : List Nat) (r : Option (List Nat × List Char)) :
    Option (List Nat × List Char) :=
  r.map fun (vs, rest) => (us ++ vs, rest)

/-- Reads a literal behind its opening quote: its units, and what is left behind the closing quote.
A character that is refused may not stand raw. A line break behind a backslash stands for
nothing. -/
def readBody (refused : Char → Bool) : List Char → Option (List Nat × List Char)
  | [] => none
  | c :: cs =>
    if c = '"' then some ([], cs)
    else if c = '\\' then match cs with
      | 'x' :: a :: b :: rest =>
        (hexNumber? [a, b]).bind fun n => prepend [n] (readBody refused rest)
      | 'u' :: a :: b :: c :: d :: rest =>
        (hexNumber? [a, b, c, d]).bind fun n => prepend [n] (readBody refused rest)
      | '\r' :: '\n' :: rest => readBody refused rest
      | e :: rest =>
        if isLineBreak e then readBody refused rest
        else (escapeUnits? e rest.head?).bind fun us => prepend us (readBody refused rest)
      | [] => none
    else if refused c then none
    else prepend (units c) (readBody refused cs)

/-- Reads a literal in double quotes at the start of a text. -/
def read? (refused : Char → Bool) : List Char → Option (List Nat × List Char)
  | '"' :: cs => readBody refused cs
  | _ => none

/-- The characters that end a line in every edition. -/
def isNewline (c : Char) : Bool := c == '\n' || c == '\r'

/-- The line and the paragraph separator. -/
def isSeparator (c : Char) : Bool := c.toNat == 0x2028 || c.toNat == 0x2029

/-! ### Quoted text -/

theorem hexNumber?_control {n : Nat} (h : n < 0x20) :
    hexNumber? ['0', '0', hexDigit (n / 16), hexDigit (n % 16)] = some n := by
  revert n
  decide

theorem hexDigit_not_lineBreak {n : Nat} (h : n < 0x10) : isLineBreak (hexDigit n) = false := by
  revert n
  decide

/-- A character is escaped, or it stands for itself. -/
inductive Escaped (c : Char) : List Char → Prop where
  /-- Behind a backslash stands a character that means this one. -/
  | letter {e : Char} (he : ∀ next, escapeUnits? e next = some (units c))
      (hbreak : isLineBreak e = false) : Escaped c ['\\', e]
  | number {d e : Char} (h : hexNumber? ['0', '0', d, e] = some c.toNat) (hlow : c.toNat < 0x20)
      (hbreak : isLineBreak d = false ∧ isLineBreak e = false) :
      Escaped c ['\\', 'u', '0', '0', d, e]
  | raw (hquote : c ≠ '"') (hslash : c ≠ '\\') (hcontrol : ¬ c.toNat < 0x20) : Escaped c [c]

theorem escaped_cases (c : Char) : Escaped c (escaped c) := by
  rw [escaped]
  split
  case isTrue h => subst h; exact .letter (fun _ => rfl) rfl
  split
  case isTrue h => subst h; exact .letter (fun _ => rfl) rfl
  split
  case isTrue h => exact .letter (fun _ => by simp [units, h, escapeUnits?]) rfl
  split
  case isTrue h => exact .letter (fun _ => by simp [units, h, escapeUnits?]) rfl
  split
  case isTrue h => subst h; exact .letter (fun _ => rfl) rfl
  split
  case isTrue h => subst h; exact .letter (fun _ => rfl) rfl
  split
  case isTrue h => subst h; exact .letter (fun _ => rfl) rfl
  split
  case isTrue h =>
    exact .number (hexNumber?_control h) h
      ⟨hexDigit_not_lineBreak (by omega), hexDigit_not_lineBreak (by omega)⟩
  case isFalse hquote hslash _ _ _ _ _ hlow => exact .raw hquote hslash hlow

variable {refused : Char → Bool}

theorem readBody_letter {e : Char} {us : List Nat} (he : ∀ next, escapeUnits? e next = some us)
    (hbreak : isLineBreak e = false) (rest : List Char) :
    readBody refused ('\\' :: e :: rest) = prepend us (readBody refused rest) := by
  have hx : e ≠ 'x' := by rintro rfl; cases he none
  have hu : e ≠ 'u' := by rintro rfl; cases he none
  have hr : e ≠ '\r' := by rintro rfl; cases hbreak
  rw [readBody.eq_def]
  dsimp only
  rw [if_neg (by decide), if_pos rfl]
  split
  case h_1 heq => exact absurd (List.cons.inj heq).1 hx
  case h_2 heq => exact absurd (List.cons.inj heq).1 hu
  case h_3 heq => exact absurd (List.cons.inj heq).1 hr
  case h_5 heq => cases heq
  case h_4 heq =>
    obtain ⟨rfl, rfl⟩ := List.cons.inj heq
    rw [hbreak, he]
    rfl

theorem readBody_number {a b c d : Char} {n : Nat} (h : hexNumber? [a, b, c, d] = some n)
    (rest : List Char) : readBody refused ('\\' :: 'u' :: a :: b :: c :: d :: rest) =
      prepend [n] (readBody refused rest) := by
  rw [readBody.eq_def]
  dsimp only
  rw [if_neg (by decide), if_pos rfl]
  simp only [h, Option.bind_some]

theorem readBody_raw {c : Char} (hquote : c ≠ '"') (hslash : c ≠ '\\') (rest : List Char) :
    readBody refused (c :: rest) =
      if refused c then none else prepend (units c) (readBody refused rest) := by
  rw [readBody.eq_def]
  dsimp only
  rw [if_neg hquote, if_neg hslash]

/-- A character reads back from the form that it is written in, unless this is the character itself
and it is refused. -/
theorem readBody_escaped (c : Char) (rest : List Char) :
    readBody refused (escaped c ++ rest) =
      if escaped c = [c] ∧ refused c = true then none
      else prepend (units c) (readBody refused rest) := by
  have hform := escaped_cases c
  generalize escaped c = form at hform
  cases hform with
  | letter he hbreak => rw [if_neg (by simp)]; exact readBody_letter he hbreak rest
  | number h hlow =>
    have hunits : units c = [c.toNat] := if_pos (by omega)
    rw [if_neg (by simp), hunits]
    exact readBody_number h rest
  | raw hquote hslash =>
    rw [List.singleton_append, readBody_raw hquote hslash]
    simp only [true_and]

/-- Whether a character stands raw in quoted text and is refused there. -/
def isExposed (refused : Char → Bool) (c : Char) : Bool := escaped c = [c] && refused c

theorem readBody_flatMap (cs rest : List Char) :
    readBody refused (cs.flatMap escaped ++ '"' :: rest) =
      if cs.any (isExposed refused) then none else some (utf16 cs, rest) := by
  induction cs with
  | nil =>
    rw [readBody.eq_def]
    rfl
  | cons c cs ih =>
    rw [List.flatMap_cons, List.append_assoc, readBody_escaped, ih, List.any_cons]
    by_cases hc : escaped c = [c] ∧ refused c = true
    · have hexposed : isExposed refused c = true := by simp [isExposed, hc]
      rw [if_pos hc, hexposed, Bool.true_or, if_pos rfl]
    · have hexposed : isExposed refused c = false := by simpa [isExposed] using hc
      rw [if_neg hc, hexposed, Bool.false_or]
      split
      · rfl
      · rfl

/-- Quoted text reads back as the text, up to its closing quote, if none of its raw characters is
refused. -/
theorem read?_quoted (cs rest : List Char) : read? refused (quoted cs ++ rest) =
    if cs.any (isExposed refused) then none else some (utf16 cs, rest) := by
  rw [quoted, List.cons_append, read?, List.append_assoc]
  exact readBody_flatMap cs rest

/-! ### Which characters stand raw -/

theorem not_exposed_newline (c : Char) : isExposed isNewline c = false := by
  have hn : escaped '\n' ≠ ['\n'] := by decide
  have hr : escaped '\r' ≠ ['\r'] := by decide
  rw [isExposed, isNewline]
  by_cases hc : c = '\n' <;> by_cases hd : c = '\r' <;> simp_all

/-- Of the line breaks only the separators stand raw. -/
theorem isExposed_lineBreak (c : Char) : isExposed isLineBreak c = isSeparator c := by
  have hbreak : isLineBreak c = (isNewline c || isSeparator c) := by
    simp only [isLineBreak, isNewline, isSeparator, Bool.or_assoc]
  have hnewline := not_exposed_newline c
  rw [isExposed] at hnewline
  rw [isExposed, hbreak, Bool.and_or_distrib_left, hnewline, Bool.false_or]
  by_cases hc : isSeparator c = true
  · have hraw : escaped c = [c] := by
      have hcode : c.toNat = 0x2028 ∨ c.toNat = 0x2029 := by simpa [isSeparator] using hc
      have hne : ∀ d : Char, d.toNat < 0x2028 → c ≠ d := by
        rintro d hd rfl
        omega
      rw [escaped, if_neg (hne _ (by decide)), if_neg (hne _ (by decide)), if_neg (by omega),
        if_neg (by omega), if_neg (hne _ (by decide)), if_neg (hne _ (by decide)),
        if_neg (hne _ (by decide)), if_neg (by omega)]
    simp [hraw]
  · simp [Bool.not_eq_true _ ▸ hc]

theorem any_exposed_newline (cs : List Char) : cs.any (isExposed isNewline) = false :=
  List.any_eq_false.2 fun c _ => by rw [not_exposed_newline]; exact Bool.false_ne_true

theorem any_exposed_lineBreak (cs : List Char) :
    cs.any (isExposed isLineBreak) = cs.any isSeparator :=
  congrArg cs.any (funext isExposed_lineBreak)

/-- No escape holds a line break, so that every one in quoted text is a raw separator. -/
theorem mem_quoted_lineBreak {c : Char} (hc : isLineBreak c = true) (cs : List Char) :
    c ∈ quoted cs ↔ c ∈ cs ∧ isSeparator c = true := by
  have hne : ∀ d : Char, isLineBreak d = false → c ≠ d := by
    rintro d hd rfl
    exact Bool.false_ne_true (hd.symm.trans hc)
  have hmem : ∀ d : Char, c ∈ escaped d ↔ c = d ∧ escaped d = [d] := by
    intro d
    have hform := escaped_cases d
    generalize escaped d = form at hform
    cases hform with
    | letter he hbreak => simp [hne '\\' (by decide), hne _ hbreak]
    | number h hlow hbreak =>
      simp [hne '\\' (by decide), hne 'u' (by decide), hne '0' (by decide), hne _ hbreak.1,
        hne _ hbreak.2]
    | raw => simp
  have hraw : escaped c = [c] ↔ isSeparator c = true := by
    rw [← isExposed_lineBreak, isExposed, hc, Bool.and_true, decide_eq_true_eq]
  simp only [quoted, List.mem_cons, List.mem_append, List.mem_flatMap, hmem, hne '"' (by decide),
    false_or, List.not_mem_nil, or_false, ← hraw]
  constructor
  · rintro ⟨d, hd, rfl, hself⟩
    exact ⟨hd, hself⟩
  · exact fun ⟨hmem, hself⟩ => ⟨c, hmem, rfl, hself⟩

end StringLiteral

end ParamLowering
