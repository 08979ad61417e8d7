set_option autoImplicit false

/-!
Byte offsets into text.

A text is a list of characters, and an offset counts the bytes of its UTF-8 form. An offset is
a boundary when it stands between two characters or at an end. Cutting and slicing are defined
at boundaries only, so every other offset gives `none`.
-/

namespace ParamLowering.Text

/-- The number of bytes of a text in UTF-8. -/
def byteLength : List Char → Nat
  | [] => 0
  | c :: cs => c.utf8Size + byteLength cs

/-- The text before and after a byte offset, if the offset is a boundary. -/
def cut? : List Char → Nat → Option (List Char × List Char)
  | cs, 0 => some ([], cs)
  | [], _ + 1 => none
  | c :: cs, n + 1 =>
    if c.utf8Size ≤ n + 1 then
      (cut? cs (n + 1 - c.utf8Size)).map fun (before, after) => (c :: before, after)
    else none

/-- Whether a byte offset stands between two characters or at an end. -/
def isBoundary (cs : List Char) (offset : Nat) : Bool :=
  (cut? cs offset).isSome

/-- The text from one byte offset on. -/
def from? (cs : List Char) (start : Nat) : Option (List Char) :=
  (cut? cs start).map (·.2)

/-- The text between two byte offsets; both have to be boundaries, in order. -/
def slice? (cs : List Char) (start stop : Nat) : Option (List Char) :=
  if start ≤ stop then
    (from? cs start).bind fun rest => (cut? rest (stop - start)).map (·.1)
  else none

@[simp] theorem byteLength_append (xs ys : List Char) :
    byteLength (xs ++ ys) = byteLength xs + byteLength ys := by
  induction xs with
  | nil => simp [byteLength]
  | cons c cs ih => simp [byteLength, ih, Nat.add_assoc]

/-- A cut loses nothing and falls where it was asked for. -/
theorem cut?_eq_some {cs before after : List Char} {n : Nat}
    (h : cut? cs n = some (before, after)) : cs = before ++ after ∧ byteLength before = n := by
  induction cs generalizing n before with
  | nil =>
    cases n with
    | zero => simp only [cut?, Option.some.injEq, Prod.mk.injEq] at h; simp [← h.1, ← h.2, byteLength]
    | succ n => simp [cut?] at h
  | cons c cs ih =>
    cases n with
    | zero => simp only [cut?, Option.some.injEq, Prod.mk.injEq] at h; simp [← h.1, ← h.2, byteLength]
    | succ n =>
      simp only [cut?] at h
      split at h
      · rename_i hc
        obtain ⟨⟨b, a⟩, hcut, heq⟩ := Option.map_eq_some_iff.1 h
        simp only [Prod.mk.injEq] at heq
        obtain ⟨rfl, rfl⟩ := heq
        obtain ⟨rfl, hb⟩ := ih hcut
        refine ⟨rfl, ?_⟩
        simp only [byteLength, hb]
        omega
      · simp at h

/-- Every split of a text is found at the byte length of its first part. -/
theorem cut?_append (before after : List Char) :
    cut? (before ++ after) (byteLength before) = some (before, after) := by
  induction before with
  | nil => simp [byteLength, cut?]
  | cons c cs ih =>
    have hc : 0 < c.utf8Size := Char.utf8Size_pos c
    obtain ⟨k, hk⟩ : ∃ k, c.utf8Size + byteLength cs = k + 1 :=
      ⟨c.utf8Size + byteLength cs - 1, by omega⟩
    have hrest : k + 1 - c.utf8Size = byteLength cs := by omega
    have hle : c.utf8Size ≤ k + 1 := by omega
    simp only [List.cons_append, byteLength, hk, cut?, hle, ↓reduceIte, hrest, ih, Option.map_some]

end ParamLowering.Text
