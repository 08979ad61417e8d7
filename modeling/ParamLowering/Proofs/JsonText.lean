import ParamLowering.JsonValue
import ParamLowering.Proofs.StringLiteral
set_option autoImplicit false

/-!
The text of a JSON value tells the value.

A text is read from its start: the first character gives the kind of a value, and a value ends
where its text does, whatever stands behind it. Only numbers need something behind them that is no
part of a number. So no two values have one text.
-/

namespace ParamLowering

/-- Quoted text ends at its closing quote. -/
theorem Text.quoted_append_injective {cs ds rest rest' : List Char}
    (h : quoted cs ++ rest = quoted ds ++ rest') : cs = ds ∧ rest = rest' := by
  have hread : ∀ es more, StringLiteral.read? (fun _ => false) (quoted es ++ more) =
      some (utf16 es, more) := fun es more => by
    rw [StringLiteral.read?_quoted, if_neg (by simp [StringLiteral.isExposed])]
  have hboth := (hread cs rest).symm.trans ((congrArg _ h).trans (hread ds rest'))
  obtain ⟨hunits, hrest⟩ := Prod.mk.inj (Option.some.inj hboth)
  exact ⟨utf16_injective hunits, hrest⟩

namespace JsonValue

/-! ### Numbers -/

/-- A character that numbers are written with. -/
def isNumeral (c : Char) : Bool :=
  c.isDigit || c == '-' || c == '+' || c == '.' || c == 'e' || c == 'E'

/-- Nothing that could belong to a number stands at the start of a text. -/
def Ends (rest : List Char) : Prop := ∀ c ∈ rest.head?, isNumeral c = false

theorem takeWhile_isNumeral {cs rest : List Char} (hcs : ∀ c ∈ cs, isNumeral c = true)
    (hrest : Ends rest) : (cs ++ rest).takeWhile isNumeral = cs := by
  rw [List.takeWhile_append_of_pos hcs]
  cases rest with
  | nil => simp
  | cons c rest => simp [hrest c rfl]

/-- Each number is written with numerals. -/
inductive WellFormed : JsonValue → Prop where
  | null : WellFormed null
  | bool (b : Bool) : WellFormed (bool b)
  | number {text : String} (hne : text.toList ≠ [])
      (h : ∀ c ∈ text.toList, isNumeral c = true) : WellFormed (number text)
  | string (text : String) : WellFormed (string text)
  | array {vs : List JsonValue} (h : ∀ v ∈ vs, WellFormed v) : WellFormed (array vs)
  | object {ms : List (String × JsonValue)} (h : ∀ m ∈ ms, WellFormed m.2) :
    WellFormed (object ms)

namespace WellFormed

theorem numerals {text : String} (h : (JsonValue.number text).WellFormed) :
    ∀ c ∈ text.toList, isNumeral c = true := by
  cases h
  assumption

theorem items {vs : List JsonValue} (h : (JsonValue.array vs).WellFormed) :
    ∀ v ∈ vs, v.WellFormed := by
  cases h
  assumption

theorem members {ms : List (String × JsonValue)} (h : (JsonValue.object ms).WellFormed) :
    ∀ m ∈ ms, m.2.WellFormed := by
  cases h
  assumption

end WellFormed

theorem toList_toString (n : Nat) : (toString n).toList = Nat.toDigits 10 n := by
  rw [Nat.toString_eq_repr, Nat.toList_repr]

theorem nat_wellFormed (n : Nat) : (nat n).WellFormed := by
  refine .number ?_ fun c hc => ?_
  · rw [toList_toString]
    exact Nat.toDigits_ne_nil
  · rw [toList_toString] at hc
    rw [isNumeral, Nat.isDigit_of_mem_toDigits (by decide) (by decide) hc]
    rfl

theorem nat_injective {m n : Nat} (h : nat m = nat n) : m = n := by
  have hdigits := congrArg String.toList (number.inj h)
  rw [toList_toString, toList_toString] at hdigits
  rw [← Nat.ofDigitChars_ten_toDigits (n := m), hdigits, Nat.ofDigitChars_ten_toDigits]

/-! ### Kinds of values -/

/-- The character that begins the text of a value; `0` stands for all that begin a number. -/
def lead : JsonValue → Char
  | null => 'n'
  | bool true => 't'
  | bool false => 'f'
  | number _ => '0'
  | string _ => '"'
  | array _ => '['
  | object _ => '\x7b'

/-- Two values are of one kind; there is one kind for each truth value. -/
inductive SameKind : JsonValue → JsonValue → Prop where
  | null : SameKind null null
  | bool (b : Bool) : SameKind (bool b) (bool b)
  | number (text text' : String) : SameKind (number text) (number text')
  | string (text text' : String) : SameKind (string text) (string text')
  | array (vs ws : List JsonValue) : SameKind (array vs) (array ws)
  | object (ms ns : List (String × JsonValue)) : SameKind (object ms) (object ns)

theorem sameKind_of_lead {v w : JsonValue} (h : v.lead = w.lead) : SameKind v w := by
  rcases v with _ | (_ | _) | _ | _ | _ | _ <;> rcases w with _ | (_ | _) | _ | _ | _ | _
  all_goals first | constructor | exact absurd h (by simp [lead])

theorem head?_pretty {v : JsonValue} (hv : v.WellFormed) (level : Nat) (rest : List Char) :
    ((v.pretty level ++ rest).head?.map fun c => if isNumeral c then '0' else c) =
      some v.lead := by
  cases hv with
  | null | string => rfl
  | bool b => cases b <;> rfl
  | @number text hne h =>
    rw [pretty]
    cases htext : text.toList with
    | nil => exact absurd htext hne
    | cons c cs => simp [lead, h c (htext ▸ List.mem_cons_self)]
  | @array vs => cases vs <;> rfl
  | @object ms => cases ms <;> rfl

section Values

variable {v w : JsonValue} {vs ws : List JsonValue} {ms ns : List (String × JsonValue)}
  {level outer : Nat} {rest rest' : List Char}

theorem sameKind_of_pretty (hv : v.WellFormed) (hw : w.WellFormed)
    (h : v.pretty level ++ rest = w.pretty level ++ rest') : SameKind v w :=
  sameKind_of_lead (Option.some.inj ((head?_pretty hv level rest).symm.trans
    (h ▸ head?_pretty hw level rest')))

/-! ### Items and members -/

theorem ends_lineBreak (level : Nat) (rest : List Char) : Ends (lineBreak level ++ rest) := by
  rintro c ⟨⟩
  decide

theorem ends_moreItems (level outer : Nat) (vs : List JsonValue) (rest : List Char) :
    Ends (moreItems level vs ++ (lineBreak outer ++ rest)) := by
  cases vs with
  | nil => exact ends_lineBreak outer rest
  | cons =>
    rintro c ⟨⟩
    decide

theorem ends_moreMembers (level outer : Nat) (ms : List (String × JsonValue))
    (rest : List Char) : Ends (moreMembers level ms ++ (lineBreak outer ++ rest)) := by
  cases ms with
  | nil => exact ends_lineBreak outer rest
  | cons =>
    rintro c ⟨⟩
    decide

/-- The text of an array tells whether it is empty, and then what its items would be as further
items. -/
theorem moreItems_of_array (h : (array vs).pretty level ++ rest = (array ws).pretty level ++ rest') :
    moreItems (level + 1) vs ++ (lineBreak level ++ ']' :: rest) =
      moreItems (level + 1) ws ++ (lineBreak level ++ ']' :: rest') := by
  cases vs <;> cases ws <;> simp_all [pretty, moreItems, lineBreak]

theorem moreMembers_of_object
    (h : (object ms).pretty level ++ rest = (object ns).pretty level ++ rest') :
    moreMembers (level + 1) ms ++ (lineBreak level ++ '\x7d' :: rest) =
      moreMembers (level + 1) ns ++ (lineBreak level ++ '\x7d' :: rest') := by
  cases ms <;> cases ns <;> simp_all [pretty, moreMembers, lineBreak]

theorem moreItems_cons_eq (h : moreItems level (v :: vs) ++ (lineBreak outer ++ rest) =
      moreItems level ws ++ (lineBreak outer ++ rest')) :
    ∃ w ws', ws = w :: ws' ∧ v.pretty level ++ (moreItems level vs ++ (lineBreak outer ++ rest)) =
      w.pretty level ++ (moreItems level ws' ++ (lineBreak outer ++ rest')) := by
  cases ws with
  | nil => simp [moreItems, lineBreak] at h
  | cons w ws => exact ⟨w, ws, rfl, by simpa [moreItems] using h⟩

theorem moreMembers_cons_eq {name : String}
    (h : moreMembers level ((name, v) :: ms) ++ (lineBreak outer ++ rest) =
      moreMembers level ns ++ (lineBreak outer ++ rest')) :
    ∃ w ns', ns = (name, w) :: ns' ∧
      v.pretty level ++ (moreMembers level ms ++ (lineBreak outer ++ rest)) =
        w.pretty level ++ (moreMembers level ns' ++ (lineBreak outer ++ rest')) := by
  cases ns with
  | nil => simp [moreMembers, lineBreak] at h
  | cons n ns =>
    simp only [moreMembers, List.cons_append, List.append_assoc, List.cons.injEq, true_and,
      List.append_cancel_left_eq] at h
    obtain ⟨hname, hvalue⟩ := Text.quoted_append_injective h
    refine ⟨n.2, ns, by rw [String.toList_inj.1 hname], ?_⟩
    simpa using hvalue

end Values

/-! ### Values -/

mutual
/-- A value is told by its text, and so is what stands behind it. -/
theorem pretty_append_injective {w : JsonValue} {level : Nat} {rest rest' : List Char} :
    ∀ v : JsonValue, v.WellFormed → w.WellFormed → Ends rest → Ends rest' →
      v.pretty level ++ rest = w.pretty level ++ rest' → v = w ∧ rest = rest'
  | .null, hv, hw, _, _, h => by
    cases sameKind_of_pretty hv hw h
    exact ⟨rfl, List.append_cancel_left h⟩
  | .bool b, hv, hw, _, _, h => by
    cases sameKind_of_pretty hv hw h
    exact ⟨rfl, List.append_cancel_left h⟩
  | .number text, hv, hw, hrest, hrest', h => by
    obtain ⟨text', rfl⟩ : ∃ text', w = .number text' := by
      cases sameKind_of_pretty hv hw h
      exact ⟨_, rfl⟩
    simp only [pretty] at h
    have htext := (takeWhile_isNumeral hv.numerals hrest).symm.trans
      ((congrArg _ h).trans (takeWhile_isNumeral hw.numerals hrest'))
    obtain rfl := String.toList_inj.1 htext
    exact ⟨rfl, List.append_cancel_left h⟩
  | .string text, hv, hw, _, _, h => by
    obtain ⟨text', rfl⟩ : ∃ text', w = .string text' := by
      cases sameKind_of_pretty hv hw h
      exact ⟨_, rfl⟩
    simp only [pretty] at h
    obtain ⟨htext, rfl⟩ := Text.quoted_append_injective h
    exact ⟨congrArg string (String.toList_inj.1 htext), rfl⟩
  | .array vs, hv, hw, _, _, h => by
    obtain ⟨ws, rfl⟩ : ∃ ws, w = .array ws := by
      cases sameKind_of_pretty hv hw h
      exact ⟨_, rfl⟩
    obtain ⟨rfl, hrest⟩ := moreItems_append_injective vs hv.items hw.items (moreItems_of_array h)
    exact ⟨rfl, (List.cons.inj hrest).2⟩
  | .object ms, hv, hw, _, _, h => by
    obtain ⟨ns, rfl⟩ : ∃ ns, w = .object ns := by
      cases sameKind_of_pretty hv hw h
      exact ⟨_, rfl⟩
    obtain ⟨rfl, hrest⟩ :=
      moreMembers_append_injective ms hv.members hw.members (moreMembers_of_object h)
    exact ⟨rfl, (List.cons.inj hrest).2⟩

theorem moreItems_append_injective {ws : List JsonValue} {level outer : Nat}
    {rest rest' : List Char} : ∀ vs : List JsonValue, (∀ v ∈ vs, v.WellFormed) →
      (∀ w ∈ ws, w.WellFormed) →
      moreItems level vs ++ (lineBreak outer ++ rest) =
        moreItems level ws ++ (lineBreak outer ++ rest') → vs = ws ∧ rest = rest'
  | [], _, _, h => by
    cases ws with
    | nil => exact ⟨rfl, List.append_cancel_left h⟩
    | cons w ws => simp [moreItems, lineBreak] at h
  | v :: vs, hv, hw, h => by
    obtain ⟨w, ws', rfl, hvalue⟩ := moreItems_cons_eq h
    obtain ⟨hv, hvs⟩ := List.forall_mem_cons.1 hv
    obtain ⟨hw, hws⟩ := List.forall_mem_cons.1 hw
    obtain ⟨rfl, hmore⟩ := pretty_append_injective v hv hw (ends_moreItems _ _ _ _)
      (ends_moreItems _ _ _ _) hvalue
    obtain ⟨rfl, rfl⟩ := moreItems_append_injective vs hvs hws hmore
    exact ⟨rfl, rfl⟩

theorem moreMembers_append_injective {ns : List (String × JsonValue)} {level outer : Nat}
    {rest rest' : List Char} : ∀ ms : List (String × JsonValue),
      (∀ m ∈ ms, m.2.WellFormed) → (∀ n ∈ ns, n.2.WellFormed) →
      moreMembers level ms ++ (lineBreak outer ++ rest) =
        moreMembers level ns ++ (lineBreak outer ++ rest') → ms = ns ∧ rest = rest'
  | [], _, _, h => by
    cases ns with
    | nil => exact ⟨rfl, List.append_cancel_left h⟩
    | cons n ns => simp [moreMembers, lineBreak] at h
  | (name, v) :: ms, hv, hw, h => by
    obtain ⟨w, ns', rfl, hvalue⟩ := moreMembers_cons_eq h
    obtain ⟨hv, hms⟩ := List.forall_mem_cons.1 hv
    obtain ⟨hw, hns⟩ := List.forall_mem_cons.1 hw
    obtain ⟨rfl, hmore⟩ := pretty_append_injective v hv hw (ends_moreMembers _ _ _ _)
      (ends_moreMembers _ _ _ _) hvalue
    obtain ⟨rfl, rfl⟩ := moreMembers_append_injective ms hms hns hmore
    exact ⟨rfl, rfl⟩
end

theorem pretty_injective {v w : JsonValue} {level : Nat} (hv : v.WellFormed) (hw : w.WellFormed)
    (h : v.pretty level = w.pretty level) : v = w := by
  have hends : Ends [] := by simp [Ends]
  have happend : v.pretty level ++ [] = w.pretty level ++ [] := by rw [h]
  exact (pretty_append_injective v hv hw hends hends happend).1

end JsonValue

end ParamLowering
