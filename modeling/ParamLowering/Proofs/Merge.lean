import ParamLowering.Edit
import ParamLowering.Proofs.Boundary
set_option autoImplicit false

/-!
What the merge of edits accepts and what it writes.

In order of position, edits that the merge accepts form a chain: each ends before the next
begins. Writing a chain out with a moving cursor and going through the source byte by byte come
to the same text.
-/

namespace ParamLowering.Sorting

variable {α : Type}

theorem insert_of_le {le : α → α → Bool} {x : α} {ys : List α}
    (h : ∀ y ∈ ys.head?, le x y = true) : insert le x ys = x :: ys := by
  cases ys with
  | nil => rfl
  | cons y ys => exact if_pos (h y rfl)

theorem insert_append {le : α → α → Bool} {x : α} {xs : List α}
    (h : ∀ y ∈ xs, le x y = false) (ys : List α) :
    insert le x (xs ++ ys) = xs ++ insert le x ys := by
  induction xs with
  | nil => rfl
  | cons y xs ih =>
    obtain ⟨hy, hxs⟩ := List.forall_mem_cons.1 h
    rw [List.cons_append, insert, hy, ih hxs]
    rfl

theorem insert_pairwise {le : α → α → Bool} (htotal : ∀ a b, le a b = false → le b a = true)
    (htrans : ∀ a b c, le a b = true → le b c = true → le a c = true) (x : α) {ys : List α}
    (h : ys.Pairwise fun a b => le a b = true) :
    (insert le x ys).Pairwise fun a b => le a b = true := by
  induction ys with
  | nil => simp [insert]
  | cons y ys ih =>
    obtain ⟨hy, hys⟩ := List.pairwise_cons.1 h
    simp only [insert]
    split
    · rename_i hxy
      refine List.pairwise_cons.2 ⟨?_, h⟩
      intro b hb
      rcases List.mem_cons.1 hb with rfl | hb
      · exact hxy
      · exact htrans x y b hxy (hy b hb)
    · rename_i hxy
      refine List.pairwise_cons.2 ⟨?_, ih hys⟩
      intro b hb
      rcases List.mem_cons.1 ((insert_perm le x ys).mem_iff.1 hb) with rfl | hb
      · exact htotal b y (by simpa using hxy)
      · exact hy b hb

theorem sort_pairwise {le : α → α → Bool} (htotal : ∀ a b, le a b = false → le b a = true)
    (htrans : ∀ a b c, le a b = true → le b c = true → le a c = true) (xs : List α) :
    (sort le xs).Pairwise fun a b => le a b = true := by
  induction xs with
  | nil => exact List.Pairwise.nil
  | cons x xs ih => exact insert_pairwise htotal htrans x ih

theorem insert_filter {le : α → α → Bool} {q : α → Bool}
    (htie : ∀ a b, q a = true → q b = true → le a b = true) (x : α) (ys : List α) :
    (insert le x ys).filter q = (x :: ys).filter q := by
  induction ys with
  | nil => rfl
  | cons y ys ih =>
    simp only [insert]
    split
    · rfl
    · rename_i hxy
      rw [List.filter_cons, ih]
      -- `x` went past `y`, so the order tells them apart and `q` drops one of them
      cases hx : q x with
      | false => simp [List.filter_cons, hx]
      | true =>
        have hy : q y = false := by
          cases hy : q y with
          | false => rfl
          | true => exact absurd (htie x y hx hy) hxy
        simp [hx, hy]

/-- Sorting is stable: elements that the order does not tell apart keep their order. -/
theorem sort_filter {le : α → α → Bool} {q : α → Bool}
    (htie : ∀ a b, q a = true → q b = true → le a b = true) (xs : List α) :
    (sort le xs).filter q = xs.filter q := by
  induction xs with
  | nil => rfl
  | cons x xs ih =>
    change (insert le x (sort le xs)).filter q = _
    rw [insert_filter htie, List.filter_cons, List.filter_cons, ih]

theorem insert_map {β : Type} {le : β → β → Bool} {le' : α → α → Bool} {f : α → β} {x : α}
    {xs : List α} (h : ∀ y ∈ xs, le (f x) (f y) = le' x y) :
    insert le (f x) (xs.map f) = (insert le' x xs).map f := by
  induction xs with
  | nil => rfl
  | cons y xs ih =>
    obtain ⟨hy, hxs⟩ := List.forall_mem_cons.1 h
    rw [List.map_cons, insert, insert, hy, ih hxs]
    split <;> rfl

/-- Elements may be sorted before they are mapped. -/
theorem sort_map {β : Type} {le : β → β → Bool} {le' : α → α → Bool} {f : α → β} {xs : List α}
    (h : ∀ x ∈ xs, ∀ y ∈ xs, le (f x) (f y) = le' x y) :
    sort le (xs.map f) = (sort le' xs).map f := by
  induction xs with
  | nil => rfl
  | cons x xs ih =>
    obtain ⟨hx, hxs⟩ := List.forall_mem_cons.1 h
    rw [List.map_cons, sort, sort, ih fun y hy z hz => hxs y hy z (List.mem_cons_of_mem _ hz)]
    exact insert_map fun y hy =>
      hx y (List.mem_cons_of_mem _ ((sort_perm le' xs).mem_iff.1 hy))

end ParamLowering.Sorting

namespace ParamLowering.Span

theorem precedes_iff {a b : Span} :
    a.precedes b = true ↔ a.start < b.start ∨ (a.start = b.start ∧ a.stop ≤ b.stop) := by
  simp [precedes]

theorem precedes_total (a b : Span) (h : a.precedes b = false) : b.precedes a = true := by
  have h' : ¬ (a.start < b.start ∨ (a.start = b.start ∧ a.stop ≤ b.stop)) := by
    rw [← precedes_iff]; simp [h]
  rw [precedes_iff]; omega

theorem precedes_trans (a b c : Span) (hab : a.precedes b = true) (hbc : b.precedes c = true) :
    a.precedes c = true := by
  rw [precedes_iff] at *; omega

end ParamLowering.Span

namespace ParamLowering.Edit

open ParamLowering.Text

/-! ### What is accepted -/

/-- The range of the edit is text of the source. -/
structure InText (source : List Char) (e : Edit) : Prop where
  inOrder : e.start ≤ e.stop
  start : isBoundary source e.start = true
  stop : isBoundary source e.stop = true

/-- Neither range reaches into the other; an empty range may touch, but not split, another. -/
def Separate (a b : Edit) : Prop := a.stop ≤ b.start ∨ b.stop ≤ a.start

theorem Separate.symm {a b : Edit} (h : Separate a b) : Separate b a := Or.symm h

/-- Each edit ends before the next begins. -/
abbrev Chain (edits : List Edit) : Prop := edits.Pairwise fun a b => a.stop ≤ b.start

theorem checkRange_eq_ok_iff {source : List Char} {e : Edit} :
    checkRange source e = .ok () ↔ InText source e := by
  constructor
  · intro h
    unfold checkRange at h
    split at h; · cases h
    split at h; · cases h
    split at h; · cases h
    split at h; · cases h
    exact ⟨by omega, by simp_all, by simp_all⟩
  · intro ⟨horder, hstart, hstop⟩
    have hlen := le_byteLength_of_isBoundary hstop
    have h₁ : ¬ e.stop < e.start := by omega
    have h₂ : ¬ byteLength source < e.stop := by omega
    simp [checkRange, h₁, h₂, hstart, hstop]

theorem checkRanges_eq_ok_iff {source : List Char} {edits : List Edit} :
    checkRanges source edits = .ok () ↔ ∀ e ∈ edits, InText source e := by
  induction edits with
  | nil => simp [checkRanges]
  | cons e es ih =>
    simp only [checkRanges, List.forall_mem_cons, ← checkRange_eq_ok_iff]
    cases checkRange source e with
    | error err => simp
    | ok _ => simp [ih, checkRange_eq_ok_iff]

theorem inOrder_perm (edits : List Edit) : (inOrder edits).Perm edits :=
  Sorting.sort_perm _ edits

theorem inOrder_pairwise (edits : List Edit) :
    (inOrder edits).Pairwise fun a b => a.span.precedes b.span = true :=
  Sorting.sort_pairwise (fun a b => Span.precedes_total a.span b.span)
    (fun a b c => Span.precedes_trans a.span b.span c.span) edits

/-- On edits in order, looking at the last non-empty edit alone finds every conflict. -/
theorem checkDisjoint_eq_ok_iff {edits : List Edit} (hvalid : ∀ e ∈ edits, e.start ≤ e.stop)
    (hsorted : edits.Pairwise fun a b => a.span.precedes b.span = true) (covered : Option Span) :
    checkDisjoint covered edits = .ok () ↔
      (∀ c ∈ covered, ∀ e ∈ edits, c.stop ≤ e.start) ∧ Chain edits := by
  induction edits generalizing covered with
  | nil => cases covered <;> simp [checkDisjoint]
  | cons e es ih =>
    obtain ⟨he, hes⟩ := List.pairwise_cons.1 hsorted
    obtain ⟨hev, hesv⟩ := List.forall_mem_cons.1 hvalid
    have hstart : ∀ b ∈ es, e.start ≤ b.start := by
      intro b hb
      have := Span.precedes_iff.1 (he b hb)
      simp only [span] at this
      omega
    have hins : e.isInsertion = true → ∀ b ∈ es, e.stop ≤ b.start := by
      intro h b hb
      have := hstart b hb
      simp only [isInsertion, beq_iff_eq] at h
      omega
    cases covered with
    | none =>
      simp only [checkDisjoint, ih hesv hes]
      cases h : e.isInsertion with
      | true => simpa [h] using fun _ => hins h
      | false => simp [span]
    | some c =>
      simp only [checkDisjoint]
      split
      · rename_i hlt
        simp only [Option.mem_def, Option.some.injEq, forall_eq', List.forall_mem_cons,
          reduceCtorEq, false_iff]
        omega
      · rename_i hge
        have hc : ∀ b ∈ es, c.stop ≤ b.start := fun b hb => by
          have := hstart b hb
          omega
        rw [ih hesv hes]
        cases h : e.isInsertion with
        | true =>
          have := hins h
          simp_all
        | false => simp_all [span]

/-- Edits in order are a chain exactly when no two of them conflict. -/
theorem chain_inOrder_iff {edits : List Edit} (hvalid : ∀ e ∈ edits, e.start ≤ e.stop) :
    Chain (inOrder edits) ↔ edits.Pairwise Separate := by
  rw [← (inOrder_perm edits).pairwise_iff Separate.symm]
  have hvalid' : ∀ e ∈ inOrder edits, e.start ≤ e.stop := fun e he =>
    hvalid e ((inOrder_perm edits).mem_iff.1 he)
  constructor
  · intro h
    exact h.imp Or.inl
  · intro h
    refine (h.and (inOrder_pairwise edits)).imp_of_mem ?_
    rintro a b ha hb ⟨hab, hle⟩
    have hav := hvalid' a ha
    have hbv := hvalid' b hb
    have := Span.precedes_iff.1 hle
    simp only [Separate, span] at *
    omega

/-- The merge accepts exactly the edits that are text of the source and do not conflict. -/
theorem exists_applyAll_iff {source : List Char} {edits : List Edit} :
    (∃ output, applyAll source edits = .ok output) ↔
      (∀ e ∈ edits, InText source e) ∧ edits.Pairwise Separate := by
  unfold applyAll
  rw [← checkRanges_eq_ok_iff]
  cases hranges : checkRanges source edits with
  | error err => simp
  | ok u =>
    have hvalid : ∀ e ∈ edits, e.start ≤ e.stop := fun e he =>
      (checkRanges_eq_ok_iff.1 hranges e he).inOrder
    have hvalid' : ∀ e ∈ inOrder edits, e.start ≤ e.stop := fun e he =>
      hvalid e ((inOrder_perm edits).mem_iff.1 he)
    have hchain := checkDisjoint_eq_ok_iff hvalid' (inOrder_pairwise edits) none
    rw [← chain_inOrder_iff hvalid]
    cases hdisjoint : checkDisjoint none (inOrder edits) with
    | error err => simp_all
    | ok u => simp_all

/-! ### What is written -/

/-- Text put in at an offset without replacing anything. -/
def insertionsAt (edits : List Edit) (p : Nat) : List Edit :=
  edits.filter fun e => e.isInsertion && e.start == p

/-- The replacement that begins at an offset. -/
def replacementAt? (edits : List Edit) (p : Nat) : Option Edit :=
  edits.find? fun e => !e.isInsertion && e.start == p

/-- The edits written out at an offset. -/
def editsAt (edits : List Edit) (p : Nat) : List Edit :=
  insertionsAt edits p ++ (replacementAt? edits p).toList

def covers (e : Edit) (p : Nat) : Bool := e.start ≤ p && p < e.stop

/-- What an offset gives: what the edits there write, then what is kept of the source unless an
edit covers it. -/
def pieceAt {β : Type} (text : Edit → List β) (kept : Nat → List β) (edits : List Edit)
    (p : Nat) : List β :=
  (editsAt edits p).flatMap text ++ if edits.any (·.covers p) then [] else kept p

/-- The bytes that an edit writes. -/
def textBytes (e : Edit) : List UInt8 := bytes e.text.toList

/-- The byte of the source at an offset; none at its end. -/
def byteAt (source : List Char) (p : Nat) : List UInt8 := (bytes source)[p]?.toList

/-- The output position by position: insertions, then the replacement that begins there, then
the byte of the source unless a range covers it. -/
def positional (source : List Char) (edits : List Edit) : List UInt8 :=
  (List.range (byteLength source + 1)).flatMap (pieceAt textBytes (byteAt source) edits)

/-- The same with a cursor that jumps over each range. -/
def woven {β : Type} (text : Edit → List β) (kept : Nat → List β) (last : Nat) :
    Nat → List Edit → List β
  | cursor, [] => (List.range' cursor (last + 1 - cursor)).flatMap kept
  | cursor, e :: es =>
    (List.range' cursor (e.start - cursor)).flatMap kept ++ text e ++ woven text kept last e.stop es

section Chain

variable {β : Type} {text : Edit → List β} {kept : Nat → List β}

theorem pieceAt_of_lt {edits : List Edit} {p : Nat} (h : ∀ e ∈ edits, p < e.start) :
    pieceAt text kept edits p = kept p := by
  have hfilter : insertionsAt edits p = [] := by
    refine List.filter_eq_nil_iff.2 fun e he => ?_
    have := h e he
    simp; omega
  have hfind : replacementAt? edits p = none := by
    refine List.find?_eq_none.2 fun e he => ?_
    have := h e he
    simp; omega
  have hany : edits.any (·.covers p) = false := by
    refine List.any_eq_false.2 fun e he => ?_
    have := h e he
    simp [covers]; omega
  simp [pieceAt, editsAt, hfilter, hfind, hany]

/-- An insertion is written first of all that stands at its place. -/
theorem pieceAt_insertion {e : Edit} (he : e.isInsertion = true) (edits : List Edit) :
    pieceAt text kept (e :: edits) e.start = text e ++ pieceAt text kept edits e.start := by
  have hcovers : e.covers e.start = false := by
    simp only [isInsertion, beq_iff_eq] at he
    simp [covers, he]
  simp [pieceAt, editsAt, insertionsAt, replacementAt?, he, hcovers]

theorem pieceAt_insertion_of_ne {e : Edit} (he : e.isInsertion = true) (edits : List Edit)
    {p : Nat} (hp : e.start ≠ p) :
    pieceAt text kept (e :: edits) p = pieceAt text kept edits p := by
  have hcovers : e.covers p = false := by
    simp only [isInsertion, beq_iff_eq] at he
    simp [covers]; omega
  simp [pieceAt, editsAt, insertionsAt, replacementAt?, he, hcovers, hp]

/-- Where a replacement begins, its text is written and nothing else. -/
theorem pieceAt_replacement {e : Edit} (he : e.start < e.stop) {edits : List Edit}
    (h : ∀ b ∈ edits, e.stop ≤ b.start) : pieceAt text kept (e :: edits) e.start = text e := by
  have hins : e.isInsertion = false := by simp [isInsertion]; omega
  have hfilter : insertionsAt edits e.start = [] := by
    refine List.filter_eq_nil_iff.2 fun b hb => ?_
    have := h b hb
    simp; omega
  have hcovers : e.covers e.start = true := by simp [covers]; omega
  simp only [insertionsAt] at hfilter
  simp [pieceAt, editsAt, insertionsAt, replacementAt?, hins, hcovers, hfilter]

theorem pieceAt_inside {e : Edit} {edits : List Edit} (h : ∀ b ∈ edits, e.stop ≤ b.start)
    {p : Nat} (hstart : e.start < p) (hstop : p < e.stop) :
    pieceAt text kept (e :: edits) p = [] := by
  have hp : ∀ b ∈ e :: edits, b.start ≠ p := by
    intro b hb
    rcases List.mem_cons.1 hb with rfl | hb
    · omega
    · have := h b hb
      omega
  have hfilter : insertionsAt (e :: edits) p = [] :=
    List.filter_eq_nil_iff.2 fun b hb => by simp [hp b hb]
  have hfind : replacementAt? (e :: edits) p = none :=
    List.find?_eq_none.2 fun b hb => by simp [hp b hb]
  have hcovers : e.covers p = true := by simp [covers]; omega
  simp [pieceAt, editsAt, hfilter, hfind, hcovers]

theorem pieceAt_of_stop_le {e : Edit} (he : e.start < e.stop) (edits : List Edit) {p : Nat}
    (hp : e.stop ≤ p) : pieceAt text kept (e :: edits) p = pieceAt text kept edits p := by
  have hne : e.start ≠ p := by omega
  have hcovers : e.covers p = false := by simp [covers]; omega
  simp [pieceAt, editsAt, insertionsAt, replacementAt?, hne, hcovers]

theorem flatMap_range'_congr {f g : Nat → List β} {c n : Nat}
    (h : ∀ p, c ≤ p → p < c + n → f p = g p) :
    (List.range' c n).flatMap f = (List.range' c n).flatMap g := by
  rw [List.flatMap_def, List.flatMap_def]
  refine congrArg List.flatten (List.map_congr_left fun p hp => ?_)
  have := List.mem_range'_1.1 hp
  exact h p this.1 this.2

theorem flatMap_range'_split {f : Nat → List β} {c d n : Nat} (hcd : c ≤ d) (hdn : d ≤ n) :
    (List.range' c (n - c)).flatMap f =
      (List.range' c (d - c)).flatMap f ++ (List.range' d (n - d)).flatMap f := by
  have hd : d = c + (d - c) := by omega
  have hn : n - c = (d - c) + (n - d) := by omega
  rw [hn, ← List.range'_append_1, List.flatMap_append, ← hd]

/-- On a chain the cursor meets every position as the positions have it. -/
theorem woven_eq_flatMap_pieceAt {last : Nat} {edits : List Edit} (hchain : Chain edits)
    (hvalid : ∀ e ∈ edits, e.start ≤ e.stop ∧ e.stop ≤ last) {cursor : Nat}
    (hcursor : ∀ e ∈ edits, cursor ≤ e.start) :
    woven text kept last cursor edits =
      (List.range' cursor (last + 1 - cursor)).flatMap (pieceAt text kept edits) := by
  induction edits generalizing cursor with
  | nil => exact flatMap_range'_congr fun p _ _ => (pieceAt_of_lt (by simp)).symm
  | cons e es ih =>
    obtain ⟨he, hes⟩ := List.pairwise_cons.1 hchain
    obtain ⟨⟨hle, hlast⟩, hvalid'⟩ := List.forall_mem_cons.1 hvalid
    obtain ⟨hstart, -⟩ := List.forall_mem_cons.1 hcursor
    have hbefore : ∀ p, cursor ≤ p → p < cursor + (e.start - cursor) →
        kept p = pieceAt text kept (e :: es) p := by
      intro p _ hp
      refine (pieceAt_of_lt fun b hb => ?_).symm
      rcases List.mem_cons.1 hb with rfl | hb
      · omega
      · have := he b hb
        omega
    rw [woven, ih hes hvalid' he, flatMap_range'_congr hbefore,
      flatMap_range'_split hstart (by omega : e.start ≤ last + 1), List.append_assoc]
    congr 1
    have hhead : List.range' e.start (last + 1 - e.start) =
        e.start :: List.range' (e.start + 1) (last + 1 - (e.start + 1)) := by
      rw [← List.range'_succ]; congr 1; omega
    cases hins : e.isInsertion with
    | true =>
      have hstop : e.stop = e.start := (beq_iff_eq.1 hins).symm
      rw [hstop, hhead, List.flatMap_cons, List.flatMap_cons, pieceAt_insertion hins,
        List.append_assoc]
      congr 2
      exact flatMap_range'_congr fun p hp _ => (pieceAt_insertion_of_ne hins es (by omega)).symm
    | false =>
      have hlt : e.start < e.stop := by
        have : e.start ≠ e.stop := by simpa [isInsertion] using hins
        omega
      rw [hhead, List.flatMap_cons, pieceAt_replacement hlt he,
        flatMap_range'_split (by omega : e.start + 1 ≤ e.stop) (by omega : e.stop ≤ last + 1)]
      have hinside : (List.range' (e.start + 1) (e.stop - (e.start + 1))).flatMap
          (pieceAt text kept (e :: es)) = [] := by
        refine List.flatMap_eq_nil_iff.2 fun p hp => ?_
        have := List.mem_range'_1.1 hp
        exact pieceAt_inside he (by omega) (by omega)
      rw [hinside, List.nil_append]
      congr 1
      exact flatMap_range'_congr fun p hp _ => (pieceAt_of_stop_le hlt es hp).symm

end Chain

theorem flatMap_byteAt {source : List Char} {i j : Nat} (hi : isBoundary source i = true)
    (hj : isBoundary source j = true) (hij : i ≤ j) :
    (List.range' i (j - i)).flatMap (byteAt source) = bytes (between source i j) := by
  have hlen := le_byteLength_of_isBoundary hj
  rw [bytes_between hi hj hij]
  generalize hn : j - i = n
  replace hn : i + n ≤ (bytes source).length := by rw [length_bytes]; omega
  clear hi hj hij hlen
  induction n generalizing i with
  | zero => simp
  | succ n ih =>
    have hlt : i < (bytes source).length := by omega
    rw [List.range'_succ, List.flatMap_cons, ih (by omega), List.drop_eq_getElem_cons hlt,
      List.take_succ_cons]
    simp only [byteAt, List.getElem?_eq_getElem hlt, Option.toList_some, List.cons_append,
      List.nil_append]

theorem from?_between {source rest : List Char} {i : Nat} (h : from? source i = some rest) :
    rest = between source i (byteLength source) := by
  obtain ⟨before, rfl, rfl⟩ := from?_eq_some_iff.1 h
  have hpart : between (before ++ rest ++ []) (byteLength before)
      (byteLength before + byteLength rest) = rest := between_eq
  simpa using hpart.symm

/-- The text with a chain of edits put in, cut by offsets of the source alone. -/
def wovenText (source : List Char) : Nat → List Edit → List Char
  | cursor, [] => between source cursor (byteLength source)
  | cursor, e :: es =>
    between source cursor e.start ++ e.text.toList ++ wovenText source e.stop es

theorem wovenText_of_le {source : List Char} {start stop : Nat} {edits : List Edit}
    (hstart : isBoundary source start = true) (hstop : isBoundary source stop = true)
    (hle : start ≤ stop) (hvalid : ∀ e ∈ edits, InText source e)
    (hedits : ∀ e ∈ edits, stop ≤ e.start) :
    wovenText source start edits = between source start stop ++ wovenText source stop edits := by
  cases edits with
  | nil =>
    have hlength := le_byteLength_of_isBoundary hstop
    exact (between_append hstart hstop (isBoundary_byteLength source) hle hlength).symm
  | cons e es =>
    have hnext := hedits e (by simp)
    have htext := hvalid e (by simp)
    rw [wovenText, wovenText, ← between_append hstart hstop htext.start hle hnext]
    simp only [List.append_assoc]

theorem splice_eq_wovenText {source : List Char} {edits : List Edit} (hchain : Chain edits)
    (hvalid : ∀ e ∈ edits, InText source e) {cursor : Nat} {rest : List Char}
    (hrest : from? source cursor = some rest) (hcursor : ∀ e ∈ edits, cursor ≤ e.start) :
    splice cursor rest edits = wovenText source cursor edits := by
  induction edits generalizing cursor rest with
  | nil => exact from?_between hrest
  | cons e es ih =>
    obtain ⟨he, hes⟩ := List.pairwise_cons.1 hchain
    obtain ⟨⟨hle, hstart, hstop⟩, hvalid'⟩ := List.forall_mem_cons.1 hvalid
    obtain ⟨hcs, -⟩ := List.forall_mem_cons.1 hcursor
    obtain ⟨atEdit, hcut, hatEdit⟩ := exists_cut? hrest hstart hcs
    obtain ⟨after, hcut', hafter⟩ := exists_cut? hatEdit hstop hle
    have hskip : from? atEdit (e.stop - e.start) = some after := by simp [from?, hcut']
    have htail : splice e.stop after es = wovenText source e.stop es := ih hes hvalid' hafter he
    simp only [splice, hcut, hskip, Option.getD_some, htail, wovenText]

theorem bytes_wovenText {source : List Char} {edits : List Edit} (hchain : Chain edits)
    (hvalid : ∀ e ∈ edits, InText source e) {cursor : Nat}
    (hboundary : isBoundary source cursor = true) (hcursor : ∀ e ∈ edits, cursor ≤ e.start) :
    bytes (wovenText source cursor edits) =
      woven textBytes (byteAt source) (byteLength source) cursor edits := by
  induction edits generalizing cursor with
  | nil =>
    have hlen := le_byteLength_of_isBoundary hboundary
    have hlast : byteAt source (byteLength source) = [] := by simp [byteAt]
    have hsplit : byteLength source + 1 - cursor = byteLength source - cursor + 1 := by omega
    have hend : cursor + (byteLength source - cursor) = byteLength source := by omega
    rw [wovenText, woven, hsplit, List.range'_concat, List.flatMap_append, Nat.one_mul, hend,
      flatMap_byteAt hboundary (isBoundary_byteLength source) hlen]
    simp [hlast]
  | cons e es ih =>
    obtain ⟨he, hes⟩ := List.pairwise_cons.1 hchain
    obtain ⟨⟨hle, hstart, hstop⟩, hvalid'⟩ := List.forall_mem_cons.1 hvalid
    obtain ⟨hcs, -⟩ := List.forall_mem_cons.1 hcursor
    rw [wovenText, woven, flatMap_byteAt hboundary hstart hcs, bytes_append, bytes_append,
      ih hes hvalid' hstop he, textBytes]

/-- Among edits that do not conflict at most one replacement begins at an offset. -/
theorem length_filter_replacements_le {edits : List Edit} (hchain : Chain edits)
    (hvalid : ∀ e ∈ edits, e.start ≤ e.stop) (p : Nat) :
    (edits.filter fun e => !e.isInsertion && e.start == p).length ≤ 1 := by
  have hpair := hchain.filter fun e => !e.isInsertion && e.start == p
  have hmem : ∀ e ∈ edits.filter fun e => !e.isInsertion && e.start == p,
      e.start = p ∧ p < e.stop := by
    intro e he
    obtain ⟨he, hq⟩ := List.mem_filter.1 he
    have := hvalid e he
    simp only [isInsertion, Bool.and_eq_true, Bool.not_eq_true', beq_eq_false_iff_ne,
      beq_iff_eq] at hq
    omega
  generalize edits.filter (fun e => !e.isInsertion && e.start == p) = found at hpair hmem
  rcases found with _ | ⟨a, _ | ⟨b, more⟩⟩
  · simp
  · simp
  · have hab : a.stop ≤ b.start := (List.pairwise_cons.1 hpair).1 b (by simp)
    have ha := hmem a (by simp)
    have hb := hmem b (by simp)
    omega

theorem editsAt_inOrder {edits : List Edit} (hchain : Chain (inOrder edits))
    (hvalid : ∀ e ∈ edits, e.start ≤ e.stop) (p : Nat) :
    editsAt (inOrder edits) p = editsAt edits p := by
  have hins : insertionsAt (inOrder edits) p = insertionsAt edits p := by
    refine Sorting.sort_filter ?_ edits
    intro a b ha hb
    simp only [isInsertion, Bool.and_eq_true, beq_iff_eq] at ha hb
    rw [Span.precedes_iff]
    simp only [span]
    omega
  have hfind : replacementAt? (inOrder edits) p = replacementAt? edits p := by
    have hperm := (inOrder_perm edits).filter fun e => !e.isInsertion && e.start == p
    have hlen := length_filter_replacements_le hchain
      (fun e he => hvalid e ((inOrder_perm edits).mem_iff.1 he)) p
    rw [replacementAt?, replacementAt?, ← List.head?_filter, ← List.head?_filter]
    generalize (inOrder edits).filter (fun e => !e.isInsertion && e.start == p) = found
      at hperm hlen ⊢
    rcases found with _ | ⟨e, _ | ⟨_, more⟩⟩
    · rw [hperm.nil_eq]
    · rw [List.perm_singleton.1 hperm.symm]
    · simp at hlen
  rw [editsAt, editsAt, hins, hfind]

theorem pieceAt_inOrder {β : Type} {text : Edit → List β} {kept : Nat → List β}
    {edits : List Edit} (hchain : Chain (inOrder edits))
    (hvalid : ∀ e ∈ edits, e.start ≤ e.stop) :
    pieceAt text kept (inOrder edits) = pieceAt text kept edits := by
  funext p
  have hany : (inOrder edits).any (·.covers p) = edits.any (·.covers p) := by
    rw [Bool.eq_iff_iff, List.any_eq_true, List.any_eq_true]
    simp only [(inOrder_perm edits).mem_iff]
  rw [pieceAt, pieceAt, editsAt_inOrder hchain hvalid, hany]

theorem woven_texts (last : Nat) (edits : List Edit) (cursor : Nat) :
    woven (fun e => [e]) (fun _ => []) last cursor edits = edits := by
  induction edits generalizing cursor with
  | nil => simp [woven]
  | cons e es ih => simp [woven, ih]

/-- The merge of edits that it accepts. -/
theorem applyAll_eq {source : List Char} {edits : List Edit}
    (hvalid : ∀ e ∈ edits, InText source e) (hseparate : edits.Pairwise Separate) :
    applyAll source edits = .ok (wovenText source 0 (inOrder edits)) := by
  obtain ⟨output, h⟩ := exists_applyAll_iff.2 ⟨hvalid, hseparate⟩
  have hchain : Chain (inOrder edits) :=
    (chain_inOrder_iff fun e he => (hvalid e he).inOrder).2 hseparate
  have hfrom : from? source 0 = some source := from?_eq_some_iff.2 ⟨[], rfl, rfl⟩
  rw [← splice_eq_wovenText hchain (fun e he => hvalid e ((inOrder_perm edits).mem_iff.1 he)) hfrom
    (fun _ _ => Nat.zero_le _), h]
  unfold applyAll at h
  split at h
  · cases h
  · split at h
    · cases h
    · exact h.symm

/-- What the merge gives, position by position; and over all positions every edit is written
exactly once. -/
theorem applyAll_positional {source output : List Char} {edits : List Edit}
    (h : applyAll source edits = .ok output) :
    bytes output = positional source edits ∧
      ((List.range (byteLength source + 1)).flatMap (editsAt edits)).Perm edits := by
  obtain ⟨hvalid, hseparate⟩ := exists_applyAll_iff.1 ⟨output, h⟩
  have horder : ∀ e ∈ edits, e.start ≤ e.stop := fun e he => (hvalid e he).inOrder
  have hchain : Chain (inOrder edits) := (chain_inOrder_iff horder).2 hseparate
  have hvalid' : ∀ e ∈ inOrder edits, InText source e := fun e he =>
    hvalid e ((inOrder_perm edits).mem_iff.1 he)
  have hbounds : ∀ e ∈ inOrder edits, e.start ≤ e.stop ∧ e.stop ≤ byteLength source :=
    fun e he => ⟨(hvalid' e he).inOrder, le_byteLength_of_isBoundary (hvalid' e he).stop⟩
  have houtput : output = wovenText source 0 (inOrder edits) := by
    rw [applyAll_eq hvalid hseparate] at h
    exact (Except.ok.inj h).symm
  constructor
  · rw [houtput, bytes_wovenText hchain hvalid' (isBoundary_zero source) (fun _ _ => Nat.zero_le _),
      woven_eq_flatMap_pieceAt hchain hbounds (fun _ _ => Nat.zero_le _),
      pieceAt_inOrder hchain horder, positional, List.range_eq_range', Nat.sub_zero]
  · have hwoven : woven (fun e => [e]) (fun _ => []) (byteLength source) 0 (inOrder edits) = _ :=
      woven_eq_flatMap_pieceAt hchain hbounds (fun _ _ => Nat.zero_le _)
    have hpiece : pieceAt (fun e => [e]) (fun _ => []) edits = editsAt edits := by
      funext p
      simp [pieceAt]
    rw [woven_texts, pieceAt_inOrder hchain horder, hpiece, Nat.sub_zero,
      ← List.range_eq_range'] at hwoven
    rw [← hwoven]
    exact inOrder_perm edits

/-- A deletion with an insertion at either end, over the text `aébcd`. -/
def sampleEdits : List Edit :=
  [delete ⟨1, 3⟩ .removal, insertAt 3 "X" .prologue, insertAt 1 "Y" .prologue,
    replace ⟨4, 5⟩ "ü" .removal, insertAt 3 "Z" .prologue]

theorem applyAll_positional_sample :
    applyAll ['a', 'é', 'b', 'c', 'd'] sampleEdits = .ok "aYXZbüd".toList ∧
      bytes "aYXZbüd".toList = positional ['a', 'é', 'b', 'c', 'd'] sampleEdits ∧
      ((List.range (byteLength ['a', 'é', 'b', 'c', 'd'] + 1)).flatMap
        (editsAt sampleEdits)).Perm sampleEdits :=
  ⟨rfl, applyAll_positional rfl⟩

end ParamLowering.Edit
