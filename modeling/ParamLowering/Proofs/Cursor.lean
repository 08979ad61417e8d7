import ParamLowering.Grammar.Parse
import ParamLowering.Proofs.TokenText
set_option autoImplicit false

/-!
Cursors on the tokens of a text.

A cursor stands on the first token at or behind a place of the text, and the next one behind that
token. A token other than a comma begins with a character that is neither a blank nor a comma.
-/

namespace ParamLowering.Grammar

open ParamLowering.Text

/-- A place of a text. -/
def Place.In (text : List Char) (p : Place) : Prop := Place.Leads ⟨text, 0⟩ p

/-- A cursor on a token of a text. -/
inductive Cursor.In (text : List Char) : Cursor → Prop where
  | source : In text (.ofSource text)
  | behind {p : Place} (hp : p.In text) : In text (.behind p)

section

variable {text : List Char} {p q : Place} {c : Cursor}

theorem Place.In.from?_eq (h : p.In text) : from? text p.offset = some p.rest := by
  obtain ⟨part, hrest, hoffset⟩ := h
  exact from?_eq_some_iff.2 ⟨part, hrest, by rw [hoffset, Nat.zero_add]⟩

theorem Place.In.isBoundary (h : p.In text) : isBoundary text p.offset = true := by
  obtain ⟨part, hrest, hoffset⟩ := h
  exact isBoundary_iff.2 ⟨part, p.rest, hrest, by rw [hoffset, Nat.zero_add]⟩

/-- The text begins at an offset with neither a blank nor a comma. -/
def OpensAt (text : List Char) (offset : Nat) : Prop :=
  ∃ cs, from? text offset = some cs ∧ Opening cs

/-- Something other than a comma was read from an offset on, up to another. -/
structure Began (text : List Char) (at_ hi : Nat) : Prop where
  lt : at_ < hi
  opens : OpensAt text at_

theorem Began.le {at_ hi : Nat} (h : Began text at_ hi) : at_ ≤ hi := Nat.le_of_lt h.lt

theorem Began.mono {at_ hi hi' : Nat} (h : Began text at_ hi) (hle : hi ≤ hi') :
    Began text at_ hi' :=
  ⟨Nat.lt_of_lt_of_le h.lt hle, h.opens⟩

/-- A construct may begin at an offset in front of a bound. -/
structure Starts (text : List Char) (at_ lo : Nat) : Prop where
  boundary : Text.isBoundary text at_ = true
  le : at_ ≤ lo

theorem Starts.mono {at_ lo lo' : Nat} (h : Starts text at_ lo) (hle : lo ≤ lo') :
    Starts text at_ lo' :=
  ⟨h.boundary, Nat.le_trans h.le hle⟩

theorem dropHashbang_in (text : List Char) : (dropHashbang text).In text := by
  have hlength : ∀ (cs : List Char) (n : Nat),
      cs.foldl (fun n c => n + c.utf8Size) n = n + byteLength cs := by
    intro cs
    induction cs with
    | nil => exact fun n => rfl
    | cons c cs ih =>
      intro n
      rw [List.foldl_cons, ih, byteLength, Nat.add_assoc]
  unfold dropHashbang
  split
  · rename_i cs
    exact ⟨_, (List.prefix_iff_eq_append.1 (List.takeWhile_prefix _)).symm, hlength _ 0⟩
  · exact .refl _

/-- The first token at or behind a place of a text. -/
structure Cursor.Stands (text : List Char) (p : Place) (c : Cursor) : Prop where
  place : p.Leads c.place
  lexes : Lexes c.place c.token c.ahead
  bounds : p.offset ≤ c.start ∧ c.start ≤ c.place.offset
  start : c.start = c.place.offset ∨
    ∃ r : Place, r.In text ∧ BeginsMarkup r.rest ∧ c.start = r.offset
  takes : c.token.IsText → c.token.Takes c.place c.ahead

theorem Cursor.ofPlace_stands (hp : p.In text) (lastStop : Nat) (broken : Bool) :
    (Cursor.ofPlace p lastStop broken).Stands text p := by
  unfold Cursor.ofPlace
  split
  · exact ⟨.refl p, .of_leads (.refl p) nofun, ⟨Nat.le_refl _, Nat.le_refl _⟩, .inl rfl,
      fun h => absurd rfl h.2⟩
  · rename_i s q hskip
    have hskips := skipTrivia_skips hskip
    rcases hskips.start with hstart | ⟨r, hr, hrq, hmarkup, hstart⟩
    · rw [hstart]
      exact ⟨hskips.leads, readToken_lexes q, ⟨hskips.leads.offset_le, Nat.le_refl _⟩, .inl rfl,
        readToken_takes rfl⟩
    · rw [hstart]
      exact ⟨hskips.leads, readToken_lexes q, ⟨hr.offset_le, hrq.offset_le⟩,
        .inr ⟨r, hp.trans hr, hmarkup, rfl⟩, readToken_takes rfl⟩

@[simp] theorem Cursor.ofPlace_lastStop (p : Place) (lastStop : Nat) (broken : Bool) :
    (Cursor.ofPlace p lastStop broken).lastStop = lastStop := by
  unfold Cursor.ofPlace
  split <;> rfl

namespace Cursor.In

theorem exists_stands (h : c.In text) : ∃ p : Place, p.In text ∧ c.lastStop ≤ p.offset ∧
    Text.isBoundary text c.lastStop = true ∧ c.Stands text p := by
  cases h with
  | source =>
    exact ⟨_, dropHashbang_in text, by simp [ofSource], by simp [ofSource, isBoundary_zero],
      ofPlace_stands (dropHashbang_in text) 0 true⟩
  | @behind p hp =>
    exact ⟨p, hp, by simp [Cursor.behind], by simpa [Cursor.behind] using hp.isBoundary,
      ofPlace_stands hp _ _⟩

variable (h : c.In text)

include h

theorem lexes : Lexes c.place c.token c.ahead := by
  obtain ⟨p, -, -, -, hc⟩ := h.exists_stands
  exact hc.lexes

theorem place_in : c.place.In text := by
  obtain ⟨p, hp, -, -, hc⟩ := h.exists_stands
  exact hp.trans hc.place

theorem ahead_in : c.ahead.In text := h.place_in.trans h.lexes.leads

theorem lastStop_le_start : c.lastStop ≤ c.start := by
  obtain ⟨p, -, hle, -, hc⟩ := h.exists_stands
  exact Nat.le_trans hle hc.bounds.1

theorem start_le_place : c.start ≤ c.place.offset := by
  obtain ⟨p, -, -, -, hc⟩ := h.exists_stands
  exact hc.bounds.2

theorem place_le_ahead : c.place.offset ≤ c.ahead.offset := h.lexes.leads.offset_le

theorem isBoundary_lastStop : Text.isBoundary text c.lastStop = true := by
  obtain ⟨p, -, -, hlastStop, -⟩ := h.exists_stands
  exact hlastStop

theorem start_eq : c.start = c.place.offset ∨
    ∃ r : Place, r.In text ∧ BeginsMarkup r.rest ∧ c.start = r.offset := by
  obtain ⟨p, -, -, -, hc⟩ := h.exists_stands
  exact hc.start

theorem isBoundary_start : Text.isBoundary text c.start = true := by
  rcases h.start_eq with heq | ⟨r, hr, -, heq⟩
  · exact heq ▸ h.place_in.isBoundary
  · exact heq ▸ hr.isBoundary

theorem starts {lo : Nat} (hle : c.start ≤ lo) : Starts text c.start lo :=
  ⟨h.isBoundary_start, hle⟩

theorem next : c.next.In text := .behind h.ahead_in

theorem start_le_ahead : c.start ≤ c.ahead.offset :=
  Nat.le_trans h.start_le_place h.place_le_ahead

theorem began (ht : c.token.Opens) : Began text c.start c.ahead.offset := by
  obtain ⟨p, -, -, -, hc⟩ := h.exists_stands
  have htakes := hc.takes ht.1
  refine ⟨Nat.lt_of_le_of_lt h.start_le_place htakes.lt, ?_⟩
  rcases h.start_eq with heq | ⟨r, hr, hmarkup, heq⟩
  · exact ⟨_, heq ▸ h.place_in.from?_eq, htakes.opening ht.2⟩
  · obtain ⟨c, after, hrest, hblank, hcomma, -⟩ := opening_of_beginsMarkup hmarkup
    exact ⟨_, heq ▸ hr.from?_eq, c, after, hrest, hblank, hcomma⟩

end Cursor.In

end

theorem Token.eq_mark_of_isMark {t : Token} {sign : String} (h : t.isMark sign = true) :
    t = .mark sign := by
  cases t with
  | mark m => rw [eq_of_beq h]
  | _ => cases h

theorem Token.opens_of_isMark {t : Token} {sign : String} (h : t.isMark sign = true)
    (hsign : sign ≠ ",") : t.Opens := by
  rw [Token.eq_mark_of_isMark h]
  exact ⟨⟨nofun, nofun⟩, fun heq => hsign (Token.mark.inj heq)⟩

theorem Token.opens_of_isWord {t : Token} {name : String} (h : t.isWord name = true) :
    t.Opens := by
  cases t with
  | word => exact ⟨⟨nofun, nofun⟩, nofun⟩
  | _ => cases h

/-- A cursor on a text that was read up to a bound. -/
structure Cursor.At (text : List Char) (lo : Nat) (c : Cursor) : Prop where
  inText : c.In text
  bound : lo ≤ c.lastStop

namespace Cursor.At

variable {text : List Char} {lo : Nat} {c : Cursor}

theorem mono {lo' : Nat} (h : c.At text lo') (hle : lo ≤ lo') : c.At text lo :=
  ⟨h.inText, Nat.le_trans hle h.bound⟩

theorem le_start (h : c.At text lo) : lo ≤ c.start :=
  Nat.le_trans h.bound h.inText.lastStop_le_start

theorem le_place (h : c.At text lo) : lo ≤ c.place.offset :=
  Nat.le_trans h.le_start h.inText.start_le_place

theorem behind {p : Place} (hp : p.In text) (hlo : lo ≤ p.offset) : (Cursor.behind p).At text lo :=
  ⟨.behind hp, by simpa [Cursor.behind] using hlo⟩

theorem next (h : c.At text lo) : c.next.At text lo :=
  .behind h.inText.ahead_in (Nat.le_trans h.le_place h.inText.place_le_ahead)

/-- Behind a sign of one character. -/
theorem skip_mark (h : c.At text lo) {sign : String} (hmark : c.token.isMark sign = true)
    (hsign : sign.length = 1) : (c.place.skip 1).In text ∧ lo ≤ (c.place.skip 1).offset := by
  have hlexes := h.inText.lexes
  rw [Token.eq_mark_of_isMark hmark] at hlexes
  have hskip := hlexes.skip_eq
  rw [hsign] at hskip
  rw [hskip]
  exact ⟨h.inText.ahead_in, Nat.le_trans h.le_place h.inText.place_le_ahead⟩

/-- Behind the first character of a longer sign. -/
theorem skip_char (h : c.At text lo) {d : Char} {cs : List Char} (hrest : c.place.rest = d :: cs)
    (hd : d.utf8Size = 1) : (c.place.skip 1).In text ∧ lo < (c.place.skip 1).offset :=
  ⟨h.inText.place_in.trans (Place.Leads.skip_one hrest hd), Nat.lt_succ_of_le h.le_place⟩

end Cursor.At

/-- From a cursor on a text to the next one. -/
theorem Cursor.In.next_at {text : List Char} {c : Cursor} (hc : c.In text) :
    c.next.At text c.ahead.offset :=
  .behind hc.ahead_in (Nat.le_refl _)

end ParamLowering.Grammar
