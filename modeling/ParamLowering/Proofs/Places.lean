import ParamLowering.Grammar.Token
import ParamLowering.Proofs.Boundary
set_option autoImplicit false

/-!
Places of a text.

Every reader goes on from a place of a text to a later place of the same text, so that the
offsets it counts are those of the text.
-/

namespace ParamLowering.Grammar

open ParamLowering.Text

/-- A place is reached from another by passing over text. -/
def Place.Leads (p q : Place) : Prop :=
  ∃ part, p.rest = part ++ q.rest ∧ q.offset = p.offset + byteLength part

namespace Place.Leads

variable {p q r : Place} {c : Char} {cs : List Char} {n offset : Nat}

theorem refl (p : Place) : p.Leads p := ⟨[], rfl, rfl⟩

theorem trans (h : p.Leads q) (h' : q.Leads r) : p.Leads r := by
  obtain ⟨part, hrest, hoffset⟩ := h
  obtain ⟨more, hrest', hoffset'⟩ := h'
  refine ⟨part ++ more, by rw [hrest, hrest', List.append_assoc], ?_⟩
  rw [hoffset', hoffset, byteLength_append]
  omega

theorem offset_le (h : p.Leads q) : p.offset ≤ q.offset := by
  obtain ⟨part, -, hoffset⟩ := h
  omega

/-- One character further. -/
theorem cons (c : Char) (cs : List Char) (offset : Nat) :
    Leads ⟨c :: cs, offset⟩ ⟨cs, offset + c.utf8Size⟩ :=
  ⟨[c], rfl, rfl⟩

theorem of_cons (h : p.rest = c :: cs) : p.Leads ⟨cs, p.offset + c.utf8Size⟩ :=
  ⟨[c], h, rfl⟩

/-- Past some characters of one byte. -/
theorem skip (part : List Char) (h : p.rest = part ++ cs)
    (hpart : byteLength part = part.length) : p.Leads (p.skip part.length) :=
  ⟨part, by rw [h, Place.skip, h, List.drop_left], by rw [hpart]; rfl⟩

theorem skip_one (h : p.rest = c :: cs) (hc : c.utf8Size = 1) : p.Leads (p.skip 1) :=
  skip [c] h (by simp [byteLength, hc])

end Place.Leads

/-! ### Blanks and comments -/

/-- A text begins with a comment in the manner of markup. -/
def BeginsMarkup (cs : List Char) : Prop :=
  ['<', '!', '-', '-'] <+: cs ∨ ['-', '-', '>'] <+: cs

/-- A text is nothing but blanks and comments. -/
def OnlyTrivia (cs : List Char) : Prop :=
  ∃ s q, ∃ offset : Nat, skipTrivia .blanks ⟨false, none⟩ cs offset = some (s, q) ∧ q.rest = []

/-- What was skipped between two places. The next token counts from where it counted before, or
from a comment in the manner of markup among what was skipped. -/
structure Skips (s s' : Skipped) (p q : Place) : Prop where
  leads : p.Leads q
  start : s'.start = s.start ∨
    ∃ r : Place, p.Leads r ∧ r.Leads q ∧ BeginsMarkup r.rest ∧ s'.start = some r.offset

namespace Skips

variable {s t s' : Skipped} {p p' q : Place}

theorem refl (s : Skipped) (p : Place) : Skips s s p p := ⟨.refl p, .inl rfl⟩

theorem after (h : p.Leads p') (ht : t.start = s.start) (h' : Skips t s' p' q) :
    Skips s s' p q where
  leads := h.trans h'.leads
  start := by
    rcases h'.start with hstart | ⟨r, hr, hrq, hmarkup, hstart⟩
    · exact .inl (hstart.trans ht)
    · exact .inr ⟨r, h.trans hr, hrq, hmarkup, hstart⟩

theorem after_markup (h : p.Leads p') (hp : BeginsMarkup p.rest)
    (h' : Skips (s.withStart p.offset) s' p' q) : Skips s s' p q where
  leads := h.trans h'.leads
  start := by
    rcases h'.start with hstart | ⟨r, hr, hrq, hmarkup, hstart⟩
    · cases hs : s.start with
      | none =>
        refine .inr ⟨p, .refl p, h.trans h'.leads, hp, ?_⟩
        rw [hstart, Skipped.withStart, hs]
        rfl
      | some at_ =>
        refine .inl ?_
        rw [hstart, Skipped.withStart, hs]
        rfl
    · exact .inr ⟨r, h.trans hr, hrq, hmarkup, hstart⟩

end Skips

theorem skipTrivia_skips {t : Trivia} {s s' : Skipped} {cs : List Char} {offset : Nat} {q : Place}
    (h : skipTrivia t s cs offset = some (s', q)) : Skips s s' ⟨cs, offset⟩ q := by
  fun_induction skipTrivia t s cs offset with
  | case1 => cases h
  | case2 | case13 =>
    obtain ⟨rfl, rfl⟩ := Prod.mk.inj (Option.some.inj h)
    exact .refl _ _
  | case3 s c cs offset _ ih | case11 s c cs offset _ _ _ _ _ ih =>
    refine .after (.cons c cs offset) ?_ (ih h)
    rfl
  | case4 s c cs offset _ ih | case12 s c cs offset _ _ _ _ _ _ ih =>
    exact .after (.cons c cs offset) rfl (ih h)
  | case5 s cs offset ih | case7 s cs offset ih | case8 s cs offset ih =>
    exact .after (.trans (.cons _ _ offset) (.cons _ cs _)) rfl (ih h)
  | case6 s c cs offset _ ih =>
    refine .after (.cons c cs offset) ?_ (ih h)
    split <;> rfl
  | case9 s cs offset ih =>
    refine .after_markup (.skip (p := ⟨_, offset⟩) ['<', '!', '-', '-'] rfl (by decide))
      (.inl ⟨cs, rfl⟩) (ih h)
  | case10 s c cs offset _ _ _ hclose ih =>
    have hmarkup : ['-', '-', '>'] <+: c :: cs :=
      List.isPrefixOf_iff_prefix.1 (Bool.and_eq_true_iff.1 hclose).2
    obtain rfl : '-' = c := (List.cons_prefix_cons.1 hmarkup).1
    exact .after_markup (.cons '-' cs offset) (.inr hmarkup) (ih h)

/-! ### Escapes -/

/-- Digits are ASCII characters. -/
theorem utf8Size_of_digitValue? {base d : Nat} {c : Char} (h : digitValue? base c = some d) :
    c.utf8Size = 1 := by
  refine Decidable.byContradiction fun hsize => ?_
  have habove : ∀ hi : Char, hi.val.toNat < 128 → decide (c ≤ hi) = false := by
    intro hi hhi
    rw [Char.utf8Size_eq_one_iff, UInt32.le_iff_toNat_le] at hsize
    rw [decide_eq_false_iff_not, Char.le_def, UInt32.le_iff_toNat_le]
    change ¬ c.val.toNat ≤ 127 at hsize
    omega
  simp [digitValue?, isDigit, habove '9' (by decide), habove 'f' (by decide),
    habove 'F' (by decide)] at h

theorem readDigits_leads {base value count offset : Nat} {cs : List Char} :
    Place.Leads ⟨cs, offset⟩ (readDigits base cs value count offset).2.2 := by
  fun_induction readDigits base cs value count offset with
  | case1 | case4 => exact .refl _
  | case2 cs value count offset ih => exact .trans (.cons _ cs offset) ih
  | case3 c cs value count offset _ d hd ih =>
    have hc := Place.Leads.cons c cs offset
    rw [utf8Size_of_digitValue? hd] at hc
    exact hc.trans ih

theorem readUnicodeEscape_leads {p q : Place} {n : Nat} (h : readUnicodeEscape p = some (n, q)) :
    p.Leads q := by
  unfold readUnicodeEscape at h
  split at h
  · rename_i cs hrest
    have hdigits := @readDigits_leads 16 0 0 (p.offset + 1) cs
    revert h
    split
    rename_i value count after heq
    intro h
    rw [heq] at hdigits
    split at h
    · rename_i more hmore
      split at h
      · obtain ⟨-, rfl⟩ := Prod.mk.inj (Option.some.inj h)
        exact (Place.Leads.of_cons hrest).trans (hdigits.trans (.of_cons hmore))
      · cases h
    · cases h
  · rename_i a b c d cs _ hrest
    simp only [Option.bind_eq_bind, Option.bind_eq_some_iff] at h
    obtain ⟨_, ha, _, hb, _, hc, _, hd, heq⟩ := h
    obtain ⟨-, rfl⟩ := Prod.mk.inj (Option.some.inj heq)
    have hskip := Place.Leads.skip [a, b, c, d] hrest (by
      simp [byteLength, utf8Size_of_digitValue? ha, utf8Size_of_digitValue? hb,
        utf8Size_of_digitValue? hc, utf8Size_of_digitValue? hd])
    rwa [Place.skip, hrest] at hskip
  · cases h

theorem readOctal_leads {p : Place} {c : Char} {cs : List Char} {d : Nat} (hrest : p.rest = c :: cs)
    (hc : digitValue? 8 c = some d) : p.Leads (readOctal p).2 := by
  have hone := Place.Leads.skip_one hrest (utf8Size_of_digitValue? hc)
  unfold readOctal
  split
  · rename_i a b c' cs' hrest'
    obtain ⟨rfl, rfl⟩ := List.cons.inj (hrest.symm.trans hrest')
    split
    · rename_i hb hc'
      split
      · have hskip := Place.Leads.skip [_, _, _] hrest' (by
          simp [byteLength, utf8Size_of_digitValue? hc, utf8Size_of_digitValue? hb,
            utf8Size_of_digitValue? hc'])
        rwa [Place.skip, hrest'] at hskip
      · exact .skip [_, _] hrest' (by
          simp [byteLength, utf8Size_of_digitValue? hc, utf8Size_of_digitValue? hb])
    · rename_i hb _
      exact .skip [_, _] hrest' (by
        simp [byteLength, utf8Size_of_digitValue? hc, utf8Size_of_digitValue? hb])
    · exact hone
  · rename_i a b _ hrest'
    obtain ⟨rfl, rfl⟩ := List.cons.inj (hrest.symm.trans hrest')
    split
    · rename_i hb
      exact .skip [_, _] hrest' (by
        simp [byteLength, utf8Size_of_digitValue? hc, utf8Size_of_digitValue? hb])
    · exact hone
  · exact hone
  · exact .refl p

theorem readEscape_leads {p q : Place} {ns : List Nat} (h : readEscape p = some (ns, q)) :
    p.Leads q := by
  have hsome : ∀ {ns' : List Nat} {q' : Place}, some (ns', q') = some (ns, q) → q' = q :=
    fun heq => (Prod.mk.inj (Option.some.inj heq)).2
  unfold readEscape at h
  split at h
  · cases h
  iterate 6
    · rename_i hrest
      exact hsome h ▸ .skip_one hrest (by decide)
  · rename_i hrest
    exact hsome h ▸ .skip ['\r', '\n'] hrest (by decide)
  · rename_i a b _ hrest
    simp only [Option.bind_eq_bind, Option.bind_eq_some_iff] at h
    obtain ⟨_, ha, _, hb, heq⟩ := h
    exact hsome heq ▸ .skip ['x', a, b] hrest (by
      have hx : 'x'.utf8Size = 1 := by decide
      simp [byteLength, hx, utf8Size_of_digitValue? ha, utf8Size_of_digitValue? hb])
  · cases h
  · rename_i hrest
    obtain ⟨⟨n, after⟩, hafter, heq⟩ := Option.map_eq_some_iff.1 h
    exact (Place.Leads.skip_one hrest (by decide)).trans
      (hsome (congrArg some heq) ▸ readUnicodeEscape_leads hafter)
  · rename_i c cs _ _ _ _ _ _ _ _ _ _ hrest
    split at h
    · exact hsome h ▸ .of_cons hrest
    · split at h
      · rename_i hdigit
        obtain ⟨d, hd⟩ := Option.isSome_iff_exists.1 hdigit
        exact hsome h ▸ readOctal_leads hrest hd
      · exact hsome h ▸ .of_cons hrest

theorem readString_leads {quote : Char} {steps : Nat} {p q : Place} {ns : List Nat}
    (h : readString quote steps p = some (ns, q)) : p.Leads q := by
  induction steps generalizing p ns with
  | zero => cases h
  | succ steps ih =>
    rw [readString] at h
    split at h
    · cases h
    · rename_i c cs hrest
      have hnext := Place.Leads.of_cons hrest
      dsimp only at h
      split at h
      · obtain ⟨-, rfl⟩ := Prod.mk.inj (Option.some.inj h)
        exact hnext
      split at h
      · cases h
      split at h
      · simp only [Option.bind_eq_bind, Option.bind_eq_some_iff] at h
        obtain ⟨⟨ns', after⟩, hescape, ⟨more, last⟩, hmore, heq⟩ := h
        obtain ⟨-, rfl⟩ := Prod.mk.inj (Option.some.inj heq)
        exact hnext.trans ((readEscape_leads hescape).trans (ih hmore))
      · simp only [Option.bind_eq_bind, Option.bind_eq_some_iff] at h
        obtain ⟨⟨more, last⟩, hmore, heq⟩ := h
        obtain ⟨-, rfl⟩ := Prod.mk.inj (Option.some.inj heq)
        exact hnext.trans (ih hmore)

theorem readName_leads {steps : Nat} {first escaped : Bool} {p q : Place} {cs : List Char}
    (h : readName steps first p = some (cs, escaped, q)) : p.Leads q := by
  induction steps generalizing first p cs escaped with
  | zero =>
    obtain ⟨-, -, rfl⟩ := Option.some.inj h
    exact .refl _
  | succ steps ih =>
    rw [readName] at h
    generalize (fun c => if first = true then isIdentifierStart c else isIdentifierPart c) = fits
      at h
    split at h
    · rename_i rest hrest
      obtain ⟨⟨n, after⟩, hafter, h⟩ := Option.bind_eq_some_iff.1 h
      have hescape := (Place.Leads.skip ['\\', 'u'] hrest (by decide)).trans
        (readUnicodeEscape_leads hafter)
      dsimp only at h
      split at h
      · obtain ⟨⟨more, _, last⟩, hmore, heq⟩ := Option.bind_eq_some_iff.1 h
        obtain ⟨-, -, rfl⟩ := Option.some.inj heq
        exact hescape.trans (ih hmore)
      · cases h
    · rename_i c rest _ hrest
      split at h
      · obtain ⟨⟨more, _, last⟩, hmore, heq⟩ := Option.bind_eq_some_iff.1 h
        obtain ⟨-, -, rfl⟩ := Option.some.inj heq
        exact (Place.Leads.of_cons hrest).trans (ih hmore)
      · obtain ⟨-, -, rfl⟩ := Option.some.inj h
        exact .refl _
    · obtain ⟨-, -, rfl⟩ := Option.some.inj h
      exact .refl _

/-! ### Numbers -/

theorem readExponent_leads (p : Place) : p.Leads (readExponent p).2 := by
  unfold readExponent
  extract_lets signed found
  have hsigned : ∀ (negative : Bool) {q : Place}, p.Leads q →
      ∀ x ∈ signed negative q, p.Leads x.2 := by
    intro negative q hq x hx
    have hdigits := @readDigits_leads 10 0 0 q.offset q.rest
    simp only [signed] at hx
    split at hx
    · cases hx
    · obtain rfl := Option.some.inj hx
      exact hq.trans hdigits
  have hletter : ∀ {e : Char}, (decide (e = 'e') || decide (e = 'E')) = true → e.utf8Size = 1 := by
    intro e he
    simp only [Bool.or_eq_true, decide_eq_true_eq] at he
    rcases he with rfl | rfl <;> decide
  have hsign : ∀ {e sign : Char}, (decide (e = 'e') || decide (e = 'E')) = true →
      sign.utf8Size = 1 → byteLength [e, sign] = 2 := by
    intro e sign he hone
    simp [byteLength, hletter he, hone]
  have hfound : ∀ x ∈ found, p.Leads x.2 := by
    intro x hx
    simp only [found] at hx
    split at hx
    · rename_i e cs hrest
      split at hx
      · rename_i he
        exact hsigned false (.skip [e, '+'] hrest (hsign he (by decide))) x hx
      · cases hx
    · rename_i e cs hrest
      split at hx
      · rename_i he
        exact hsigned true (.skip [e, '-'] hrest (hsign he (by decide))) x hx
      · cases hx
    · rename_i e cs _ _ hrest
      split at hx
      · rename_i he
        exact hsigned false (.skip_one hrest (hletter he)) x hx
      · cases hx
    · cases hx
  cases h : found with
  | none => exact .refl p
  | some x => exact hfound x h

theorem readFraction_leads (whole : Nat) (p : Place) : p.Leads (readFraction whole p).2 := by
  unfold readFraction
  split
  rename_i value count after hdigits
  have hafter : p.Leads after := by
    split at hdigits
    · rename_i cs hrest
      have hcs := @readDigits_leads 10 whole 0 (p.offset + 1) cs
      rw [hdigits] at hcs
      exact (Place.Leads.of_cons hrest).trans hcs
    · obtain ⟨-, -, rfl⟩ := hdigits
      exact .refl p
  exact hafter.trans (readExponent_leads after)

theorem wholeNumber_leads (value : Nat) (p : Place) : p.Leads (wholeNumber value p).2 := by
  unfold wholeNumber
  split
  · rename_i hrest
    exact .skip_one hrest (by decide)
  · exact .refl p

theorem readBased_leads (base : Nat) (p : Place) : p.Leads (readBased base p).2 := by
  have hdigits := @readDigits_leads base 0 0 p.offset p.rest
  unfold readBased
  split
  split
  · exact .refl p
  · rename_i heq _
    rw [heq] at hdigits
    exact hdigits.trans (wholeNumber_leads _ _)

theorem readDecimal_leads (p : Place) : p.Leads (readDecimal p).2 := by
  have hdigits := @readDigits_leads 10 0 0 p.offset p.rest
  unfold readDecimal
  split
  rename_i value count after heq
  rw [heq] at hdigits
  dsimp only
  split
  · exact hdigits
  · split
    · rename_i hrest
      exact hdigits.trans (.skip_one hrest (by decide))
    · exact hdigits.trans (readFraction_leads _ _)

theorem readNumber_leads (p : Place) : p.Leads (readNumber p).2 := by
  unfold readNumber
  split
  iterate 6
    · rename_i hrest
      exact (Place.Leads.skip [_, _] hrest (by decide)).trans (readBased_leads _ _)
  · exact readDecimal_leads p

/-! ### Signs -/

/-- The characters of a sign have one byte each. -/
theorem byteLength_of_mem_marks : ∀ m ∈ marks, byteLength m.toList = m.toList.length := by
  decide

/-- A token that tells what stands at its place. -/
def Token.Tells : Token → Prop
  | .mark _ | .finish => True
  | _ => False

/-- What was read goes on to a later place, a sign stands where it was read, and the end is the
end of the text. -/
structure Lexes (p : Place) (token : Token) (q : Place) : Prop where
  leads : p.Leads q
  mark : ∀ m : String, token = .mark m →
    p.rest = m.toList ++ q.rest ∧ q.offset = p.offset + m.length
  finish : token = .finish → p.rest = []

namespace Lexes

variable {p q : Place} {token : Token}

theorem of_leads (h : p.Leads q) (htoken : ¬token.Tells) : Lexes p token q := by
  refine ⟨h, ?_, ?_⟩
  · rintro m rfl
    exact absurd trivial htoken
  · rintro rfl
    exact absurd trivial htoken

theorem of_mark {m : String} (hp : m.toList <+: p.rest)
    (hm : byteLength m.toList = m.toList.length) : Lexes p (.mark m) (p.skip m.length) := by
  obtain ⟨cs, hcs⟩ := hp
  rw [← String.length_toList]
  refine ⟨.skip m.toList hcs.symm hm, ?_, nofun⟩
  rintro m' ⟨⟩
  rw [Place.skip, ← hcs, List.drop_left, ← String.length_toList]
  exact ⟨rfl, rfl⟩

/-- The place behind a sign, by the number of its characters. -/
theorem skip_eq {m : String} (h : Lexes p (.mark m) q) : p.skip m.length = q := by
  obtain ⟨hrest, hoffset⟩ := h.mark m rfl
  rw [Place.skip, hrest, ← String.length_toList, List.drop_left, String.length_toList, ← hoffset]

end Lexes

theorem readMark_lexes (p : Place) : Lexes p (readMark p).1 (readMark p).2 := by
  unfold readMark
  split
  · rename_i d cs hrest
    split
    · exact .of_mark (m := "?") (by rw [hrest]; exact ⟨'.' :: d :: cs, rfl⟩) (by decide)
    · exact .of_mark (m := "?.") (by rw [hrest]; exact ⟨d :: cs, rfl⟩) (by decide)
  · split
    · rename_i m hm
      have hprefix : m.toList.isPrefixOf p.rest = true := by simpa using List.find?_some hm
      exact .of_mark (List.isPrefixOf_iff_prefix.1 hprefix)
        (byteLength_of_mem_marks m (List.mem_of_find?_eq_some hm))
    · exact .of_leads (.refl p) nofun

theorem not_tells_wholeNumber (value : Nat) (p : Place) : ¬(wholeNumber value p).1.Tells := by
  unfold wholeNumber
  split <;> nofun

theorem readNumber_lexes (p : Place) : Lexes p (readNumber p).1 (readNumber p).2 := by
  refine .of_leads (readNumber_leads p) ?_
  have hbased : ∀ base q, ¬(readBased base q).1.Tells := by
    intro base q
    unfold readBased
    split
    split
    · nofun
    · exact not_tells_wholeNumber _ _
  have hdecimal : ¬(readDecimal p).1.Tells := by
    unfold readDecimal
    split
    dsimp only
    split
    · nofun
    · split
      · nofun
      · unfold readFraction
        split
        nofun
  unfold readNumber
  split
  iterate 6 exact hbased _ _
  exact hdecimal

theorem readToken_lexes (p : Place) : Lexes p (readToken p).1 (readToken p).2 := by
  unfold readToken
  split
  · rename_i hrest
    exact ⟨.refl p, nofun, fun _ => hrest⟩
  · rename_i hrest
    exact .of_leads (.skip_one hrest (by decide)) nofun
  · rename_i c cs _ hrest
    split
    · rename_i hquote
      simp only [Bool.or_eq_true, decide_eq_true_eq] at hquote
      have hone : c.utf8Size = 1 := by rcases hquote with rfl | rfl <;> decide
      split
      · rename_i hstring
        refine .of_leads (.trans ?_ (readString_leads hstring)) nofun
        exact hone ▸ .of_cons hrest
      · exact .of_leads (.refl p) nofun
    split
    · exact readNumber_lexes p
    split
    · split
      · rename_i hname
        exact .of_leads (readName_leads hname) nofun
      · exact .of_leads (.refl p) nofun
    split
    · rename_i hhash
      subst hhash
      split
      · rename_i hname
        exact .of_leads ((Place.Leads.of_cons hrest).trans (readName_leads hname)) nofun
      · exact .of_mark (m := "#") (by rw [hrest]; exact ⟨cs, rfl⟩) (by decide)
    · exact readMark_lexes p

end ParamLowering.Grammar
