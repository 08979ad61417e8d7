import Mathlib.Data.List.Perm.Subperm
import ParamLowering.Proofs.Merge
set_option autoImplicit false

/-!
Which lists of edits the merge refuses, and what it says about them.

Two edits conflict when their ranges have a byte in common, or when one of them inserts strictly
inside the range of the other. The merge compares each edit only with the last non-empty one
before it, in order of position. That finds a conflict whenever there is one, and what it finds
is one. A range that is no text of the source is reported before any conflict.
-/

namespace ParamLowering.Edit

open ParamLowering.Text

/-- The ranges of two edits have a byte in common. -/
def SharesByte (a b : Edit) : Prop := ∃ p, (a.start ≤ p ∧ p < a.stop) ∧ b.start ≤ p ∧ p < b.stop

/-- An edit of length zero stands strictly inside a range. -/
def Splits (insertion range : Edit) : Prop :=
  insertion.start = insertion.stop ∧
    range.start < insertion.start ∧ insertion.start < range.stop

def Conflict (a b : Edit) : Prop := a.SharesByte b ∨ a.Splits b ∨ b.Splits a

/-- What is wrong with a range. Of several faults the first of these counts. -/
inductive RangeFault (source : List Char) (e : Edit) : EditError → Prop where
  | inverted : e.stop < e.start → RangeFault source e (.inverted e.start e.stop)
  | outOfBounds : e.start ≤ e.stop → byteLength source < e.stop →
      RangeFault source e (.outOfBounds e.start e.stop (byteLength source))
  | startInCharacter : e.start ≤ e.stop → e.stop ≤ byteLength source →
      isBoundary source e.start = false → RangeFault source e (.splitsCharacter e.start)
  | stopInCharacter : e.start ≤ e.stop → e.stop ≤ byteLength source →
      isBoundary source e.start = true → isBoundary source e.stop = false →
      RangeFault source e (.splitsCharacter e.stop)

variable {source : List Char} {edits : List Edit}

theorem separate_iff_not_conflict {a b : Edit} (ha : a.start ≤ a.stop) (hb : b.start ≤ b.stop) :
    Separate a b ↔ ¬ Conflict a b := by
  constructor
  · rintro h (⟨p, hp⟩ | hp | hp)
    · simp only [Separate] at h
      omega
    · simp only [Separate, Splits] at h hp
      omega
    · simp only [Separate, Splits] at h hp
      omega
  · intro h
    by_contra hseparate
    simp only [Separate, not_or, Nat.not_le] at hseparate
    refine h ?_
    -- both ranges reach beyond the later of the two starts, unless one of them is empty
    by_cases hempty : a.start = a.stop
    · exact .inr (.inl ⟨hempty, by omega⟩)
    · by_cases hempty' : b.start = b.stop
      · exact .inr (.inr ⟨hempty', by omega⟩)
      · exact .inl ⟨max a.start b.start, by omega⟩

theorem inText_iff {e : Edit} : InText source e ↔
    e.start ≤ e.stop ∧ e.stop ≤ byteLength source ∧ isBoundary source e.start = true ∧
      isBoundary source e.stop = true :=
  ⟨fun h => ⟨h.inOrder, le_byteLength_of_isBoundary h.stop, h.start, h.stop⟩,
    fun ⟨horder, _, hstart, hstop⟩ => ⟨horder, hstart, hstop⟩⟩

theorem rangeFault_of_checkRange {e : Edit} {err : EditError}
    (h : checkRange source e = .error err) : RangeFault source e err := by
  unfold checkRange at h
  split at h
  · rename_i hinverted
    cases h
    exact .inverted hinverted
  · split at h
    · rename_i hlength
      cases h
      exact .outOfBounds (by omega) hlength
    · split at h
      · rename_i hstart
        cases h
        exact .startInCharacter (by omega) (by omega) (by simpa using hstart)
      · split at h
        · rename_i hstart hstop
          cases h
          exact .stopInCharacter (by omega) (by omega) (by simpa using hstart) (by simpa using hstop)
        · cases h

/-- The first range that is no text is the one that is reported. -/
theorem rangeFault_of_checkRanges {err : EditError} (h : checkRanges source edits = .error err) :
    ∃ before e after, edits = before ++ e :: after ∧ (∀ d ∈ before, InText source d) ∧
      RangeFault source e err := by
  induction edits with
  | nil => cases h
  | cons e es ih =>
    unfold checkRanges at h
    split at h
    · rename_i err' hrange
      cases h
      exact ⟨[], e, es, rfl, by simp, rangeFault_of_checkRange hrange⟩
    · rename_i hrange
      obtain ⟨before, d, after, rfl, hbefore, hfault⟩ := ih h
      refine ⟨e :: before, d, after, rfl, ?_, hfault⟩
      exact List.forall_mem_cons.2 ⟨checkRange_eq_ok_iff.1 hrange, hbefore⟩

/-- A refusal names a range met before and an edit that begins in front of its end. -/
theorem exists_of_checkDisjoint_error {covered : Option Span} {err : EditError}
    (h : checkDisjoint covered edits = .error err) :
    (∃ c ∈ covered, ∃ e ∈ edits, e.start < c.stop ∧ err = .overlap c e.span) ∨
      ∃ a b, [a, b].Sublist edits ∧ b.start < a.stop ∧ err = .overlap a.span b.span := by
  induction edits generalizing covered with
  | nil => cases covered <;> cases h
  | cons e es ih =>
    cases covered with
    | none =>
      simp only [checkDisjoint] at h
      rcases ih h with ⟨c, hc, b, hb, hlt, rfl⟩ | ⟨a, b, hab, hlt, rfl⟩
      · split at hc
        · cases hc
        · obtain rfl := Option.some.inj hc
          exact .inr ⟨e, b, (List.singleton_sublist.2 hb).cons_cons e, hlt, rfl⟩
      · exact .inr ⟨a, b, hab.cons e, hlt, rfl⟩
    | some c =>
      simp only [checkDisjoint] at h
      split at h
      · rename_i hlt
        cases h
        exact .inl ⟨c, rfl, e, by simp, hlt, rfl⟩
      · rcases ih h with ⟨d, hd, b, hb, hlt, rfl⟩ | ⟨a, b, hab, hlt, rfl⟩
        · split at hd
          · exact .inl ⟨d, hd, b, List.mem_cons_of_mem e hb, hlt, rfl⟩
          · obtain rfl := Option.some.inj hd
            exact .inr ⟨e, b, (List.singleton_sublist.2 hb).cons_cons e, hlt, rfl⟩
        · exact .inr ⟨a, b, hab.cons e, hlt, rfl⟩

/-- In order of position an edit that begins in front of the end of an earlier one conflicts with
it; an insertion at the start of a range would stand before the range. -/
theorem conflict_of_precedes {a b : Edit} (hb : b.start ≤ b.stop)
    (hle : a.span.precedes b.span = true) (hlt : b.start < a.stop) : Conflict a b := by
  have hcases := Span.precedes_iff.1 hle
  simp only [span] at hcases
  by_cases hempty : b.start = b.stop
  · exact .inr (.inr ⟨hempty, by omega, hlt⟩)
  · exact .inl ⟨b.start, by omega, by omega⟩

theorem conflict_of_refused {err : EditError} (hvalid : ∀ e ∈ edits, e.start ≤ e.stop)
    (h : checkDisjoint none (inOrder edits) = .error err) :
    ∃ a b, [a, b].Subperm edits ∧ Conflict a b ∧ err = .overlap a.span b.span := by
  rcases exists_of_checkDisjoint_error h with ⟨c, hc, -⟩ | ⟨a, b, hab, hlt, rfl⟩
  · cases hc
  · have hperm : [a, b].Subperm edits := hab.subperm.trans (inOrder_perm edits).subperm
    have hle : a.span.precedes b.span = true := by
      simpa using (inOrder_pairwise edits).sublist hab
    exact ⟨a, b, hperm, conflict_of_precedes (hvalid b (hperm.subset (by simp))) hle hlt, rfl⟩

/-- The merge takes exactly the edits whose ranges are text and of which no two conflict. What it
says otherwise is true: it names the first fault among the ranges or, if there is none, two
edits that conflict. -/
theorem applyAll_accepts_iff (source : List Char) (edits : List Edit) :
    ((∃ output, applyAll source edits = .ok output) ↔
      (∀ e ∈ edits, e.start ≤ e.stop ∧ e.stop ≤ byteLength source ∧
        isBoundary source e.start = true ∧ isBoundary source e.stop = true) ∧
      edits.Pairwise fun a b => ¬ Conflict a b) ∧
    ∀ err, applyAll source edits = .error err →
      (∃ before e after, edits = before ++ e :: after ∧ (∀ d ∈ before, InText source d) ∧
        RangeFault source e err) ∨
      ((∀ e ∈ edits, InText source e) ∧
        ∃ a b, [a, b].Subperm edits ∧ Conflict a b ∧ err = .overlap a.span b.span) := by
  constructor
  · rw [exists_applyAll_iff]
    simp only [← inText_iff]
    refine and_congr_right fun hvalid => List.Pairwise.iff_of_mem fun {a b} ha hb => ?_
    exact separate_iff_not_conflict (hvalid a ha).inOrder (hvalid b hb).inOrder
  · intro err h
    unfold applyAll at h
    split at h
    · rename_i err' hranges
      cases h
      exact .inl (rangeFault_of_checkRanges hranges)
    · rename_i hranges
      have hvalid := checkRanges_eq_ok_iff.1 hranges
      split at h
      · rename_i err' hrefused
        cases h
        exact .inr ⟨hvalid, conflict_of_refused (fun e he => (hvalid e he).inOrder) hrefused⟩
      · cases h

end ParamLowering.Edit
