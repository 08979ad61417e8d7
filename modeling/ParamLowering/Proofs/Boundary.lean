import ParamLowering.Span
set_option autoImplicit false

/-!
Boundaries as splits of a text.

An offset is a boundary exactly when the text is a prefix of that many bytes and a remainder.
What stands between two boundaries is a part of the text in characters and in bytes.
-/

namespace ParamLowering.Text

/-- The UTF-8 form of a text. -/
def bytes (cs : List Char) : List UInt8 := cs.flatMap String.utf8EncodeChar

@[simp] theorem bytes_nil : bytes [] = [] := rfl

@[simp] theorem bytes_append (xs ys : List Char) : bytes (xs ++ ys) = bytes xs ++ bytes ys := by
  simp [bytes]

@[simp] theorem length_bytes (cs : List Char) : (bytes cs).length = byteLength cs := by
  induction cs with
  | nil => rfl
  | cons c cs ih =>
    have h : bytes (c :: cs) = String.utf8EncodeChar c ++ bytes cs := by simp [bytes]
    rw [h, List.length_append, String.length_utf8EncodeChar, ih]
    rfl

theorem cut?_eq_some_iff {cs before after : List Char} {n : Nat} :
    cut? cs n = some (before, after) ↔ cs = before ++ after ∧ byteLength before = n := by
  constructor
  · exact cut?_eq_some
  · rintro ⟨rfl, rfl⟩
    exact cut?_append before after

theorem from?_eq_some_iff {cs after : List Char} {n : Nat} :
    from? cs n = some after ↔ ∃ before, cs = before ++ after ∧ byteLength before = n := by
  simp [from?, Option.map_eq_some_iff, cut?_eq_some_iff]

theorem isBoundary_iff {cs : List Char} {n : Nat} :
    isBoundary cs n = true ↔ ∃ before after, cs = before ++ after ∧ byteLength before = n := by
  simp [isBoundary, Option.isSome_iff_exists, cut?_eq_some_iff]

theorem isBoundary_zero (cs : List Char) : isBoundary cs 0 = true :=
  isBoundary_iff.2 ⟨[], cs, rfl, rfl⟩

theorem isBoundary_byteLength (cs : List Char) : isBoundary cs (byteLength cs) = true :=
  isBoundary_iff.2 ⟨cs, [], by simp, rfl⟩

theorem le_byteLength_of_isBoundary {cs : List Char} {n : Nat} (h : isBoundary cs n = true) :
    n ≤ byteLength cs := by
  obtain ⟨before, after, rfl, rfl⟩ := isBoundary_iff.1 h
  rw [byteLength_append]
  exact Nat.le_add_right _ _

theorem byteLength_eq_zero {cs : List Char} (h : byteLength cs = 0) : cs = [] := by
  cases cs with
  | nil => rfl
  | cons c cs =>
    have hc := c.utf8Size_pos
    simp only [byteLength] at h
    omega

/-- Of two prefixes of one text the shorter is a prefix of the longer. -/
theorem exists_append_of_byteLength_le {xs ys us vs : List Char} (h : xs ++ ys = us ++ vs)
    (hle : byteLength xs ≤ byteLength us) : ∃ ms, us = xs ++ ms ∧ ys = ms ++ vs := by
  obtain ⟨ms, rfl, rfl⟩ | ⟨ms, rfl, rfl⟩ := List.append_eq_append_iff.1 h
  · exact ⟨ms, rfl, rfl⟩
  · have hms : ms = [] := byteLength_eq_zero (by rw [byteLength_append] at hle; omega)
    exact ⟨[], by simp [hms]⟩

theorem slice?_eq_some_iff {cs part : List Char} {i j : Nat} :
    slice? cs i j = some part ↔ ∃ before after, cs = before ++ part ++ after ∧
      byteLength before = i ∧ byteLength before + byteLength part = j := by
  constructor
  · intro h
    unfold slice? at h
    split at h
    · rename_i hij
      obtain ⟨rest, hrest, hcut⟩ := Option.bind_eq_some_iff.1 h
      obtain ⟨⟨p, after⟩, hpart, rfl⟩ := Option.map_eq_some_iff.1 hcut
      obtain ⟨before, rfl, hbefore⟩ := from?_eq_some_iff.1 hrest
      obtain ⟨rfl, hp⟩ := cut?_eq_some hpart
      refine ⟨before, after, by simp, hbefore, ?_⟩
      change byteLength before + byteLength p = j
      omega
    · simp at h
  · rintro ⟨before, after, rfl, rfl, rfl⟩
    have hfrom : from? (before ++ part ++ after) (byteLength before) = some (part ++ after) :=
      from?_eq_some_iff.2 ⟨before, by simp, rfl⟩
    rw [slice?, if_pos (Nat.le_add_right _ _), hfrom, Option.bind_some, Nat.add_sub_cancel_left,
      cut?_append]
    rfl

/-- The text between two offsets; nothing where there is no such text. -/
def between (cs : List Char) (i j : Nat) : List Char := (slice? cs i j).getD []

theorem between_eq {before part after : List Char} :
    between (before ++ part ++ after) (byteLength before)
      (byteLength before + byteLength part) = part := by
  have h : slice? (before ++ part ++ after) (byteLength before)
      (byteLength before + byteLength part) = some part :=
    slice?_eq_some_iff.2 ⟨before, after, rfl, rfl, rfl⟩
  rw [between, h]
  rfl

/-- Two boundaries in order cut a text into three. -/
theorem exists_split {cs : List Char} {i j : Nat} (hi : isBoundary cs i = true)
    (hj : isBoundary cs j = true) (hij : i ≤ j) : ∃ before part after,
      cs = before ++ part ++ after ∧ byteLength before = i ∧
      byteLength before + byteLength part = j := by
  obtain ⟨before, rest, hcs, rfl⟩ := isBoundary_iff.1 hi
  obtain ⟨upto, after, hcs', rfl⟩ := isBoundary_iff.1 hj
  obtain ⟨part, rfl, hrest⟩ := exists_append_of_byteLength_le (hcs.symm.trans hcs') hij
  exact ⟨before, part, after, hcs', rfl, by simp⟩

theorem between_self (cs : List Char) (i : Nat) : between cs i i = [] := by
  cases h : slice? cs i i with
  | none => rw [between, h]; rfl
  | some part =>
    obtain ⟨before, after, -, hi, hj⟩ := slice?_eq_some_iff.1 h
    have hpart : part = [] := byteLength_eq_zero (by omega)
    rw [between, h, hpart]
    rfl

theorem between_append {cs : List Char} {i j k : Nat} (hi : isBoundary cs i = true)
    (hj : isBoundary cs j = true) (hk : isBoundary cs k = true) (hij : i ≤ j) (hjk : j ≤ k) :
    between cs i j ++ between cs j k = between cs i k := by
  obtain ⟨before, part, rest, hcs, rfl, rfl⟩ := exists_split hi hj hij
  obtain ⟨upto, more, after, hcs', hupto, rfl⟩ := exists_split hj hk hjk
  obtain ⟨ms, hms, hrest⟩ := exists_append_of_byteLength_le
    (hcs.symm.trans (hcs'.trans (List.append_assoc _ _ _))) (by simp [hupto])
  have hnil : ms = [] := byteLength_eq_zero (by
    have h := congrArg byteLength hms
    simp only [byteLength_append] at h
    omega)
  subst hnil
  simp only [List.append_nil] at hms
  simp only [List.nil_append] at hrest
  subst hms hrest hcs
  have h₁ : between (before ++ part ++ (more ++ after)) (byteLength before)
      (byteLength before + byteLength part) = part := between_eq
  have h₂ : between (before ++ part ++ more ++ after) (byteLength (before ++ part))
      (byteLength (before ++ part) + byteLength more) = more := between_eq
  have h₃ : between (before ++ (part ++ more) ++ after) (byteLength before)
      (byteLength before + byteLength (part ++ more)) = part ++ more := between_eq
  simp only [byteLength_append, List.append_assoc, Nat.add_assoc] at h₁ h₂ h₃ ⊢
  rw [h₁, h₂, h₃]

/-- From one boundary on, the text up to a later one is found by the distance between them. -/
theorem exists_cut? {cs rest : List Char} {i j : Nat} (hrest : from? cs i = some rest)
    (hj : isBoundary cs j = true) (hij : i ≤ j) :
    ∃ after, cut? rest (j - i) = some (between cs i j, after) ∧ from? cs j = some after := by
  obtain ⟨start, hcs, hstart⟩ := from?_eq_some_iff.1 hrest
  obtain ⟨before, part, after, rfl, rfl, rfl⟩ := exists_split
    (isBoundary_iff.2 ⟨start, rest, hcs, hstart⟩) hj hij
  have hfrom : from? (before ++ part ++ after) (byteLength before) = some (part ++ after) :=
    from?_eq_some_iff.2 ⟨before, by simp, rfl⟩
  obtain rfl : part ++ after = rest := Option.some.inj (hfrom.symm.trans hrest)
  refine ⟨after, ?_, from?_eq_some_iff.2 ⟨before ++ part, rfl, by simp⟩⟩
  rw [between_eq, Nat.add_sub_cancel_left, cut?_append]

theorem bytes_between {cs : List Char} {i j : Nat} (hi : isBoundary cs i = true)
    (hj : isBoundary cs j = true) (hij : i ≤ j) :
    bytes (between cs i j) = ((bytes cs).drop i).take (j - i) := by
  obtain ⟨before, part, after, rfl, rfl, rfl⟩ := exists_split hi hj hij
  rw [between_eq, bytes_append, bytes_append, List.append_assoc,
    ← length_bytes before, List.drop_left, Nat.add_sub_cancel_left, ← length_bytes part,
    List.take_left]

end ParamLowering.Text
