import ParamLowering.Proofs.Places
import ParamLowering.Text.Blank
set_option autoImplicit false

/-!
What a token begins with.

Every token but the two that stand for no text takes up a piece of text, and that begins with
neither a blank nor, unless it is one, a comma.
-/

namespace ParamLowering.Grammar

open ParamLowering.Text

/-- A text that begins with neither a blank nor a comma. -/
def Opening (cs : List Char) : Prop := ∃ c after, cs = c :: after ∧ isBlank c = false ∧ c ≠ ','

/-- A token that stands for text. -/
def Token.IsText (t : Token) : Prop := t ≠ .finish ∧ t ≠ .stray

/-- A token that stands for text other than a comma. -/
def Token.Opens (t : Token) : Prop := t.IsText ∧ t ≠ .mark ","

instance (t : Token) : Decidable t.IsText := inferInstanceAs (Decidable (_ ∧ _))

instance (t : Token) : Decidable t.Opens := inferInstanceAs (Decidable (_ ∧ _))

/-! ### Characters -/

theorem toNat_le {a b : Char} (h : a ≤ b) : a.toNat ≤ b.toNat := UInt32.le_iff_toNat_le.1 h

/-- The code points of the blanks. -/
def blankCodes : List Nat :=
  [0x09, 0x0A, 0x0B, 0x0C, 0x0D, 0x20, 0x85, 0xA0, 0x1680, 0x2000, 0x2001, 0x2002, 0x2003, 0x2004,
   0x2005, 0x2006, 0x2007, 0x2008, 0x2009, 0x200A, 0x2028, 0x2029, 0x202F, 0x205F, 0x3000]

theorem mem_blankCodes {c : Char} (h : isBlank c = true) : c.toNat ∈ blankCodes := by
  simp only [isBlank, Bool.or_eq_true, Bool.and_eq_true, decide_eq_true_eq, beq_iff_eq] at h
  simp only [blankCodes, List.mem_cons, List.not_mem_nil, or_false]
  omega

theorem isBlank_of_isIdentifierStart {c : Char} (h : isIdentifierStart c = true) :
    isBlank c = false := by
  refine Bool.eq_false_iff.2 fun hblank => ?_
  have hmem := mem_blankCodes hblank
  have htable : ∀ n ∈ blankCodes, IdentifierTable.covers IdentifierTable.startRanges n = false := by
    decide +kernel
  have hsmall : ∀ n ∈ blankCodes, ¬ (0x41 ≤ n ∧ n ≤ 0x7A) ∧ n ≠ 0x24 := by decide
  have hletter : ¬ (0x41 ≤ c.toNat ∧ c.toNat ≤ 0x7A) := (hsmall _ hmem).1
  simp only [isIdentifierStart, htable _ hmem, isAsciiLetter, Bool.and_false, Bool.or_false,
    Bool.or_eq_true, Bool.and_eq_true, decide_eq_true_eq, beq_iff_eq] at h
  rcases h with ((⟨hlow, hhigh⟩ | ⟨hlow, hhigh⟩) | rfl) | rfl
  · exact hletter ⟨Nat.le_trans (by decide) (toNat_le hlow), toNat_le hhigh⟩
  · exact hletter ⟨toNat_le hlow, Nat.le_trans (toNat_le hhigh) (by decide)⟩
  · exact hletter (by decide)
  · exact (hsmall _ hmem).2 rfl

theorem opening_of_isDigit {c : Char} {cs : List Char} (h : isDigit c = true) :
    Opening (c :: cs) := by
  refine ⟨c, cs, rfl, Bool.eq_false_iff.2 fun hblank => ?_, ?_⟩
  · have hsmall : ∀ n ∈ blankCodes, ¬ (0x30 ≤ n ∧ n ≤ 0x39) := by decide
    simp only [isDigit, Bool.and_eq_true, decide_eq_true_eq] at h
    exact hsmall _ (mem_blankCodes hblank) ⟨toNat_le h.1, toNat_le h.2⟩
  · rintro rfl
    exact absurd h (by decide)

/-- A sign other than the comma begins a text that opens. -/
theorem opening_of_mark : ∀ m ∈ marks, m ≠ "," → ∀ cs, Opening (m.toList ++ cs) := by
  have hmarks : ∀ m ∈ marks, m ≠ "," →
      (m.toList.head?.any fun c => !isBlank c && c != ',') = true := by decide
  intro m hm hcomma cs
  have hhead := hmarks m hm hcomma
  cases hlist : m.toList with
  | nil => simp [hlist] at hhead
  | cons c more =>
    simp only [hlist, List.head?_cons, Option.any_some, Bool.and_eq_true, Bool.not_eq_true',
      bne_iff_ne] at hhead
    exact ⟨c, more ++ cs, rfl, hhead.1, hhead.2⟩

theorem opening_of_beginsMarkup {cs : List Char} (h : BeginsMarkup cs) :
    ∃ c after, cs = c :: after ∧ isBlank c = false ∧ c ≠ ',' ∧ c.utf8Size = 1 := by
  rcases h with ⟨more, rfl⟩ | ⟨more, rfl⟩
  · exact ⟨'<', _, rfl, by decide, by decide, by decide⟩
  · exact ⟨'-', _, rfl, by decide, by decide, by decide⟩

/-! ### Places -/

variable {p q : Place} {c : Char} {cs : List Char}

theorem Place.Leads.offset_lt (h : Place.Leads ⟨cs, p.offset + c.utf8Size⟩ q) :
    p.offset < q.offset :=
  Nat.lt_of_lt_of_le (Nat.lt_add_of_pos_right c.utf8Size_pos) h.offset_le

theorem readName_lt {steps : Nat} {first escaped : Bool}
    (h : readName steps first p = some (c :: cs, escaped, q)) : p.offset < q.offset := by
  cases steps with
  | zero => cases h
  | succ steps =>
    rw [readName] at h
    generalize (fun c => if first = true then isIdentifierStart c else isIdentifierPart c) = fits
      at h
    split at h
    · obtain ⟨⟨n, after⟩, hafter, h⟩ := Option.bind_eq_some_iff.1 h
      have hescape : p.offset + 2 ≤ after.offset := (readUnicodeEscape_leads hafter).offset_le
      dsimp only at h
      split at h
      · obtain ⟨⟨more, _, last⟩, hmore, heq⟩ := Option.bind_eq_some_iff.1 h
        obtain ⟨-, -, rfl⟩ := Option.some.inj heq
        exact Nat.lt_of_lt_of_le (Nat.lt_of_lt_of_le (Nat.lt_add_of_pos_right (by decide)) hescape)
          (readName_leads hmore).offset_le
      · cases h
    · split at h
      · obtain ⟨⟨more, _, last⟩, hmore, heq⟩ := Option.bind_eq_some_iff.1 h
        obtain ⟨-, -, rfl⟩ := Option.some.inj heq
        exact (readName_leads hmore).offset_lt
      · cases h
    · cases h

theorem readDigits_of_isDigit (hc : isDigit c = true) (cs : List Char) (offset : Nat) :
    offset < (readDigits 10 (c :: cs) 0 0 offset).2.2.offset := by
  have hvalue : ∃ d, digitValue? 10 c = some d := by
    simp only [isDigit, Bool.and_eq_true, decide_eq_true_eq] at hc
    have hhigh : c.toNat ≤ 57 := toNat_le hc.2
    have hlt : c.toNat - 48 < 10 := by omega
    exact ⟨c.toNat - 48, by simp [digitValue?, isDigit, hc, hlt]⟩
  obtain ⟨d, hd⟩ := hvalue
  have hunderscore : c ≠ '_' := by
    rintro rfl
    exact absurd hc (by decide)
  rw [readDigits]
  · rw [hd]
    exact (@readDigits_leads 10 _ _ (offset + 1) cs).offset_le
  · exact fun h => hunderscore h

/-- A number begins with a digit, or with a point before one, and takes it up. -/
theorem readDecimal_lt (hrest : p.rest = c :: cs) (hc : isDigit c = true ∨ c = '.') :
    p.offset < (readDecimal p).2.offset := by
  rcases hc with hdigit | rfl
  · have hafter := readDigits_of_isDigit hdigit cs p.offset
    rw [← hrest] at hafter
    unfold readDecimal
    split
    rename_i value count after heq
    rw [heq] at hafter
    dsimp only
    split
    · exact hafter
    · split
      · exact Nat.lt_of_lt_of_le hafter (Nat.le_add_right _ _)
      · exact Nat.lt_of_lt_of_le hafter (readFraction_leads _ _).offset_le
  · have hdigits : readDigits 10 p.rest 0 0 p.offset = (0, 0, ⟨'.' :: cs, p.offset⟩) := by
      rw [hrest]
      rfl
    unfold readDecimal
    rw [hdigits]
    dsimp only
    rw [if_neg (by simp)]
    unfold readFraction
    dsimp only
    have hfraction := (@readDigits_leads 10 0 0 (p.offset + 1) cs).offset_le
    exact Nat.lt_of_lt_of_le hfraction (readExponent_leads _).offset_le

theorem readNumber_lt (hrest : p.rest = c :: cs) (hc : isDigit c = true ∨ c = '.') :
    p.offset < (readNumber p).2.offset := by
  have hbased : ∀ base, p.offset < (readBased base (p.skip 2)).2.offset := fun base =>
    Nat.lt_of_succ_lt (readBased_leads base (p.skip 2)).offset_le
  unfold readNumber
  split
  iterate 6 exact hbased _
  exact readDecimal_lt hrest hc

theorem readMark_eq {t : Token} (h : readMark p = (t, q)) :
    t = .stray ∨ ∃ m ∈ marks, t = .mark m ∧ q = p.skip m.length := by
  unfold readMark at h
  split at h
  · split at h
    · obtain ⟨rfl, rfl⟩ := Prod.mk.inj h
      exact .inr ⟨"?", by decide, rfl, rfl⟩
    · obtain ⟨rfl, rfl⟩ := Prod.mk.inj h
      exact .inr ⟨"?.", by decide, rfl, rfl⟩
  · split at h
    · rename_i m hm
      obtain ⟨rfl, rfl⟩ := Prod.mk.inj h
      exact .inr ⟨m, List.mem_of_find?_eq_some hm, rfl, rfl⟩
    · exact .inl (Prod.mk.inj h).1.symm

/-! ### Tokens -/

/-- A token takes up a piece of text, and how that begins. -/
structure Token.Takes (p : Place) (t : Token) (q : Place) : Prop where
  lt : p.offset < q.offset
  opening : t ≠ .mark "," → Opening p.rest

theorem Token.Takes.of_cons {t : Token} (hrest : p.rest = c :: cs) (hlt : p.offset < q.offset)
    (hc : isBlank c = false ∧ c ≠ ',') : Token.Takes p t q :=
  ⟨hlt, fun _ => ⟨c, cs, hrest, hc⟩⟩

theorem readMark_takes {t : Token} (h : readMark p = (t, q)) (ht : t ≠ .stray) :
    Token.Takes p t q := by
  have hlength : ∀ m ∈ marks, 0 < m.length := by decide
  rcases readMark_eq h with rfl | ⟨m, hm, rfl, rfl⟩
  · exact absurd rfl ht
  · refine ⟨Nat.lt_add_of_pos_right (hlength m hm), fun hcomma => ?_⟩
    have hlexes := readMark_lexes p
    rw [h] at hlexes
    rw [(hlexes.mark m rfl).1]
    exact opening_of_mark m hm (fun hm => hcomma (by rw [hm])) _

theorem readToken_takes {t : Token} (h : readToken p = (t, q)) (ht : t.IsText) :
    Token.Takes p t q := by
  obtain ⟨hfinish, hstray⟩ := ht
  unfold readToken at h
  split at h
  · exact absurd (Prod.mk.inj h).1.symm hfinish
  · rename_i hrest
    obtain ⟨rfl, rfl⟩ := Prod.mk.inj h
    exact .of_cons hrest (Nat.lt_succ_self _) (by decide)
  · rename_i c cs _ hrest
    split at h
    · rename_i hquote
      simp only [Bool.or_eq_true, decide_eq_true_eq] at hquote
      split at h
      · rename_i hstring
        obtain ⟨rfl, rfl⟩ := Prod.mk.inj h
        refine .of_cons hrest (readString_leads hstring).offset_le ?_
        rcases hquote with rfl | rfl <;> decide
      · exact absurd (Prod.mk.inj h).1.symm hstray
    split at h
    · rename_i hnumber
      simp only [Bool.or_eq_true, Bool.and_eq_true, decide_eq_true_eq] at hnumber
      have hlt := readNumber_lt hrest (hnumber.imp_right And.left)
      rw [h] at hlt
      refine ⟨hlt, fun _ => hrest ▸ ?_⟩
      rcases hnumber with hdigit | ⟨rfl, -⟩
      · exact opening_of_isDigit hdigit
      · exact ⟨'.', cs, rfl, by decide⟩
    split at h
    · rename_i hname
      simp only [Bool.or_eq_true, decide_eq_true_eq] at hname
      split at h
      · rename_i hread
        obtain ⟨rfl, rfl⟩ := Prod.mk.inj h
        refine .of_cons hrest (readName_lt hread) ⟨?_, ?_⟩
        · rcases hname with hstart | rfl
          · exact isBlank_of_isIdentifierStart hstart
          · decide
        · rintro rfl
          exact absurd hname (by decide)
      · exact absurd (Prod.mk.inj h).1.symm hstray
    split at h
    · rename_i hhash
      subst hhash
      split at h
      · rename_i hread
        obtain ⟨rfl, rfl⟩ := Prod.mk.inj h
        exact .of_cons hrest (readName_leads hread).offset_le (by decide)
      · obtain ⟨rfl, rfl⟩ := Prod.mk.inj h
        exact .of_cons hrest (Nat.lt_succ_self _) (by decide)
    · exact readMark_takes h hstray

end ParamLowering.Grammar
