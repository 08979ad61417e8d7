import ParamLowering.Proofs.Merge
set_option autoImplicit false

/-!
Merging in parts, from the back.

Where edits end before others begin, a text falls into a front for the first and a back for the
others. What the others make of the back leaves the front as it is, so that the offsets of the
first edits still hold.
-/

namespace ParamLowering

namespace Sorting

variable {α : Type} {le : α → α → Bool}

theorem insert_append_of_le {x : α} {ys : List α} (h : ∀ y ∈ ys, le x y = true) (xs : List α) :
    insert le x (xs ++ ys) = insert le x xs ++ ys := by
  induction xs with
  | nil => exact insert_of_le fun y hy => h y (List.mem_of_head? hy)
  | cons z xs ih =>
    rw [List.cons_append, insert, insert, ih]
    split <;> rfl

theorem sort_append {xs ys : List α} (h : ∀ x ∈ xs, ∀ y ∈ ys, le x y = true) :
    sort le (xs ++ ys) = sort le xs ++ sort le ys := by
  induction xs with
  | nil => rfl
  | cons x xs ih =>
    obtain ⟨hx, hxs⟩ := List.forall_mem_cons.1 h
    have hsorted : ∀ y ∈ sort le ys, le x y = true := fun y hy =>
      hx y ((sort_perm le ys).mem_iff.1 hy)
    rw [List.cons_append, sort, ih hxs, insert_append_of_le hsorted, sort]

end Sorting

/-! ### A front and a back -/

namespace Text

variable {front back : List Char} {i j : Nat}

theorem isBoundary_append (h : isBoundary front i = true) (back : List Char) :
    isBoundary (front ++ back) i = true := by
  obtain ⟨before, after, rfl, rfl⟩ := isBoundary_iff.1 h
  exact isBoundary_iff.2 ⟨before, after ++ back, by simp, rfl⟩

theorem isBoundary_of_append (h : isBoundary (front ++ back) i = true)
    (hi : i ≤ byteLength front) : isBoundary front i = true := by
  obtain ⟨before, after, htext, rfl⟩ := isBoundary_iff.1 h
  obtain ⟨rest, hfront, -⟩ := exists_append_of_byteLength_le htext.symm hi
  exact isBoundary_iff.2 ⟨before, rest, hfront, rfl⟩

theorem between_front (hi : isBoundary front i = true) (hj : isBoundary front j = true)
    (hij : i ≤ j) (back : List Char) : between (front ++ back) i j = between front i j := by
  obtain ⟨before, part, after, rfl, rfl, rfl⟩ := exists_split hi hj hij
  rw [between_eq, List.append_assoc, between_eq]

end Text

namespace Edit

open ParamLowering.Text

variable {source front back : List Char} {as bs : List Edit}

theorem InText.append {e : Edit} (h : InText front e) (back : List Char) :
    InText (front ++ back) e :=
  ⟨h.inOrder, isBoundary_append h.start back, isBoundary_append h.stop back⟩

theorem InText.of_append {e : Edit} (h : InText (front ++ back) e)
    (hstop : e.stop ≤ byteLength front) : InText front e :=
  ⟨h.inOrder, isBoundary_of_append h.start (Nat.le_trans h.inOrder hstop),
    isBoundary_of_append h.stop hstop⟩

/-- Edits of the front are written as in the front alone, whatever the others make of the back. -/
theorem wovenText_append (hchain : Chain as) (has : ∀ a ∈ as, InText front a)
    (hbs : ∀ b ∈ bs, InText (front ++ back) b) (hbehind : ∀ b ∈ bs, byteLength front ≤ b.start)
    {cursor : Nat} (hcursor : isBoundary front cursor = true) (hahead : ∀ a ∈ as, cursor ≤ a.start) :
    wovenText (front ++ back) cursor (as ++ bs) =
      wovenText front cursor as ++ wovenText (front ++ back) (byteLength front) bs := by
  induction as generalizing cursor with
  | nil =>
    have hlength := isBoundary_byteLength front
    have hle := le_byteLength_of_isBoundary hcursor
    rw [List.nil_append, wovenText_of_le (isBoundary_append hcursor back)
      (isBoundary_append hlength back) hle hbs hbehind, between_front hcursor hlength hle]
    rfl
  | cons a as ih =>
    obtain ⟨ha, hchain'⟩ := List.pairwise_cons.1 hchain
    obtain ⟨htext, has'⟩ := List.forall_mem_cons.1 has
    obtain ⟨hle, -⟩ := List.forall_mem_cons.1 hahead
    rw [List.cons_append, wovenText, wovenText, ih hchain' has' htext.stop ha,
      between_front hcursor htext.start hle]
    simp only [List.append_assoc]

theorem wovenText_nil (source : List Char) : wovenText source 0 [] = source :=
  (from?_between (from?_eq_some_iff.2 ⟨[], rfl, rfl⟩)).symm

theorem wovenText_front (hbs : ∀ b ∈ bs, InText (front ++ back) b)
    (hbehind : ∀ b ∈ bs, byteLength front ≤ b.start) :
    wovenText (front ++ back) 0 bs = front ++ wovenText (front ++ back) (byteLength front) bs := by
  have hwoven := wovenText_append .nil (by simp) hbs hbehind (isBoundary_zero front) (by simp)
  rwa [List.nil_append, wovenText_nil] at hwoven

/-- Between edits and others behind them a text can be cut. -/
theorem exists_front (has : ∀ a ∈ as, InText source a)
    (horder : ∀ a ∈ as, ∀ b ∈ bs, a.stop ≤ b.start) :
    ∃ front back, source = front ++ back ∧ (∀ a ∈ as, a.stop ≤ byteLength front) ∧
      ∀ b ∈ bs, byteLength front ≤ b.start := by
  obtain ⟨cut, hcut, hle, hbehind⟩ : ∃ cut, isBoundary source cut = true ∧
      (∀ a ∈ as, a.stop ≤ cut) ∧ ∀ b ∈ bs, cut ≤ b.start := by
    induction as with
    | nil => exact ⟨0, isBoundary_zero source, by simp, by simp⟩
    | cons a as ih =>
      obtain ⟨htext, has'⟩ := List.forall_mem_cons.1 has
      obtain ⟨ha, horder'⟩ := List.forall_mem_cons.1 horder
      obtain ⟨cut, hcut, hle, hbehind⟩ := ih has' horder'
      -- the later of the two ends
      rcases Nat.le_total a.stop cut with h | h
      · exact ⟨cut, hcut, List.forall_mem_cons.2 ⟨h, hle⟩, hbehind⟩
      · exact ⟨a.stop, htext.stop, List.forall_mem_cons.2 ⟨Nat.le_refl _, fun b hb =>
          Nat.le_trans (hle b hb) h⟩, ha⟩
  obtain ⟨front, back, rfl, rfl⟩ := isBoundary_iff.1 hcut
  exact ⟨front, back, rfl, hle, hbehind⟩

/-! ### Merging -/

theorem inOrder_append (has : ∀ a ∈ as, a.start ≤ a.stop) (hbs : ∀ b ∈ bs, b.start ≤ b.stop)
    (horder : ∀ a ∈ as, ∀ b ∈ bs, a.stop ≤ b.start) :
    inOrder (as ++ bs) = inOrder as ++ inOrder bs := by
  refine Sorting.sort_append fun a ha b hb => Span.precedes_iff.2 ?_
  have hstart := has a ha
  have hstop := hbs b hb
  have hab := horder a ha b hb
  simp only [span]
  omega

/-- Two lists of edits of which one stands in front of the other come to the same text when they
are merged together and when the one behind is merged first. -/
theorem applyAll_append {output behind : List Char} (has : applyAll source as = .ok output)
    (hbs : applyAll source bs = .ok behind) (horder : ∀ a ∈ as, ∀ b ∈ bs, a.stop ≤ b.start) :
    ∃ merged, applyAll source (as ++ bs) = .ok merged ∧ applyAll behind as = .ok merged := by
  obtain ⟨hvalid, hseparate⟩ := exists_applyAll_iff.1 ⟨output, has⟩
  obtain ⟨hvalid', hseparate'⟩ := exists_applyAll_iff.1 ⟨behind, hbs⟩
  obtain ⟨front, back, rfl, hle, hbehind⟩ := exists_front hvalid horder
  have hfront : ∀ a ∈ as, InText front a := fun a ha => (hvalid a ha).of_append (hle a ha)
  have hchain : Chain (inOrder as) :=
    (chain_inOrder_iff fun a ha => (hfront a ha).inOrder).2 hseparate
  have hsorted : ∀ a ∈ inOrder as, InText front a := fun a ha =>
    hfront a ((inOrder_perm as).mem_iff.1 ha)
  have hsorted' : ∀ b ∈ inOrder bs, InText (front ++ back) b := fun b hb =>
    hvalid' b ((inOrder_perm bs).mem_iff.1 hb)
  have hbehind' : ∀ b ∈ inOrder bs, byteLength front ≤ b.start := fun b hb =>
    hbehind b ((inOrder_perm bs).mem_iff.1 hb)
  -- what the list behind makes of the back
  obtain ⟨rest, hrest⟩ : ∃ rest, rest =
      wovenText (front ++ back) (byteLength front) (inOrder bs) := ⟨_, rfl⟩
  have htogether : applyAll (front ++ back) (as ++ bs) =
      .ok (wovenText front 0 (inOrder as) ++ rest) := by
    have hall : ∀ e ∈ as ++ bs, InText (front ++ back) e := by
      intro e he
      exact (List.mem_append.1 he).elim (hvalid e) (hvalid' e)
    have hpairs : (as ++ bs).Pairwise Separate :=
      List.pairwise_append.2 ⟨hseparate, hseparate', fun a ha b hb => .inl (horder a ha b hb)⟩
    rw [applyAll_eq hall hpairs, inOrder_append (fun a ha => (hvalid a ha).inOrder)
      (fun b hb => (hvalid' b hb).inOrder) horder, wovenText_append hchain hsorted hsorted' hbehind'
      (isBoundary_zero front) fun _ _ => Nat.zero_le _, hrest]
  have hbehindText : behind = front ++ rest := by
    rw [applyAll_eq hvalid' hseparate', wovenText_front hsorted' hbehind', ← hrest] at hbs
    exact (Except.ok.inj hbs).symm
  have hlater : applyAll behind as = .ok (wovenText front 0 (inOrder as) ++ rest) := by
    have hwoven : wovenText (front ++ rest) 0 (inOrder as ++ []) =
        wovenText front 0 (inOrder as) ++ wovenText (front ++ rest) (byteLength front) [] :=
      wovenText_append hchain hsorted (by simp) (by simp) (isBoundary_zero front)
        fun _ _ => Nat.zero_le _
    have hkept : from? (front ++ rest) (byteLength front) = some rest :=
      from?_eq_some_iff.2 ⟨front, rfl, rfl⟩
    rw [hbehindText, applyAll_eq (fun a ha => (hfront a ha).append rest) hseparate,
      ← List.append_nil (inOrder as), hwoven, wovenText, ← from?_between hkept]
    simp
  exact ⟨_, htogether, hlater⟩

/-- Edits of `aébcd`: a deletion in front of offset 3, and an insertion there. -/
def frontEdits : List Edit := [delete ⟨1, 3⟩ .removal, insertAt 3 "X" .prologue]

/-- A replacement behind offset 3, and an insertion there. -/
def backEdits : List Edit := [replace ⟨3, 4⟩ "üü" .removal, insertAt 3 "Y" .prologue]

theorem applyAll_append_touching :
    applyAll ['a', 'é', 'b', 'c', 'd'] frontEdits = .ok "aXbcd".toList ∧
    applyAll ['a', 'é', 'b', 'c', 'd'] backEdits = .ok "aéYüücd".toList ∧
    (∀ a ∈ frontEdits, ∀ b ∈ backEdits, a.stop ≤ b.start) ∧
    ∃ merged, applyAll ['a', 'é', 'b', 'c', 'd'] (frontEdits ++ backEdits) = .ok merged ∧
      applyAll "aéYüücd".toList frontEdits = .ok merged := by
  have hfront : applyAll ['a', 'é', 'b', 'c', 'd'] frontEdits = .ok "aXbcd".toList := rfl
  have hback : applyAll ['a', 'é', 'b', 'c', 'd'] backEdits = .ok "aéYüücd".toList := rfl
  have horder : ∀ a ∈ frontEdits, ∀ b ∈ backEdits, a.stop ≤ b.start := by decide
  exact ⟨hfront, hback, horder, applyAll_append hfront hback horder⟩

end Edit

end ParamLowering
