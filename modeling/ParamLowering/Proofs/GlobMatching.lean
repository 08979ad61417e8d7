import Mathlib.Data.List.Basic
import ParamLowering.Glob
import ParamLowering.Proofs.Boundary
set_option autoImplicit false

/-!
What a glob matches.

The matcher goes over the tokens with all ends of the path that may be left. It finds exactly the
paths that come apart into texts which the tokens stand for, one after another.
-/

namespace ParamLowering.Glob

/-! ### Meaning -/

mutual
/-- A token stands for a text. -/
def Covers : GlobToken → List UInt8 → Prop
  | .literal c, bs => bs = bytesOf c
  | .any, bs => ∃ b, bs = [b]
  | .star, _ => True
  | .leadingDirectories, bs => bs = [] ∨ ∃ front, bs = front ++ [47]
  | .everythingBelow, bs => ∃ below, bs = 47 :: below
  | .betweenDirectories, bs => bs = [47] ∨ ∃ between, bs = 47 :: (between ++ [47])
  | .oneOf negated ranges, bs =>
    ∃ b, bs = [b] ∧ (negated != ranges.any fun r => r.first ≤ b && b ≤ r.last) = true
  | .alternatives branches, bs => if areVoid branches then bs = [] else CoversOne branches bs
termination_by structural t => t

/-- Tokens stand for a text, one after another. -/
def CoversAll : List GlobToken → List UInt8 → Prop
  | [], bs => bs = []
  | t :: ts, bs => ∃ first more, bs = first ++ more ∧ Covers t first ∧ CoversAll ts more
termination_by structural ts => ts

/-- One of some branches stands for a text; void ones do not count. -/
def CoversOne : List (List GlobToken) → List UInt8 → Prop
  | [], _ => False
  | b :: branches, bs => (isVoidBranch b = false ∧ CoversAll b bs) ∨ CoversOne branches bs
termination_by structural branches => branches
end

/-! ### Ends -/

theorem mem_ends {s text : List UInt8} : s ∈ ends text ↔ s <:+ text := by
  induction text with
  | nil => rw [ends, List.mem_singleton, List.suffix_nil]
  | cons b bs ih => rw [ends, List.mem_cons, List.suffix_cons_iff, ih]

theorem mem_behindSeparators {s text : List UInt8} :
    s ∈ behindSeparators text ↔ ∃ front, front ++ 47 :: s = text := by
  induction text with
  | nil => simp [behindSeparators]
  | cons b bs ih =>
    rw [behindSeparators]
    split
    case isTrue hb =>
      subst hb
      rw [List.mem_cons, ih]
      constructor
      · rintro (rfl | ⟨front, rfl⟩)
        · exact ⟨[], rfl⟩
        · exact ⟨47 :: front, rfl⟩
      · rintro ⟨front, hfront⟩
        cases front with
        | nil => exact .inl (List.cons.inj hfront).2
        | cons c front => exact .inr ⟨front, (List.cons.inj hfront).2⟩
    case isFalse hb =>
      rw [ih]
      constructor
      · rintro ⟨front, rfl⟩
        exact ⟨b :: front, rfl⟩
      · rintro ⟨front, hfront⟩
        cases front with
        | nil => exact absurd (List.cons.inj hfront).1.symm hb
        | cons c front => exact ⟨front, (List.cons.inj hfront).2⟩

/-- All of some texts are ends of one. -/
def AreEnds (text : List UInt8) (rests : List (List UInt8)) : Prop := ∀ r ∈ rests, r <:+ text

variable {text s : List UInt8} {rests : List (List UInt8)}

theorem AreEnds.of_append {more : List (List UInt8)} (h : AreEnds text rests)
    (hmore : ∀ s ∈ more, ∃ u, u ++ s ∈ rests) : AreEnds text more := by
  intro s hs
  obtain ⟨u, hu⟩ := hmore s hs
  exact (List.suffix_append u s).trans (h _ hu)

theorem mem_distinct (h : AreEnds text rests) : s ∈ distinct rests ↔ s ∈ rests := by
  induction rests generalizing s with
  | nil => rfl
  | cons r rests ih =>
    obtain ⟨hr, hrests⟩ := List.forall_mem_cons.1 h
    rw [distinct]
    split
    case isFalse => rw [List.mem_cons, List.mem_cons, ih hrests]
    case isTrue hany =>
      obtain ⟨t, ht, hlength⟩ := List.any_eq_true.1 hany
      have htext := (ih hrests).1 ht
      -- ends of one text with the same length are the same
      have heq : t = r := by
        have hsame : t.length = r.length := beq_iff_eq.1 hlength
        have hsuffix := List.suffix_of_suffix_length_le (hrests t htext) hr (Nat.le_of_eq hsame)
        exact hsuffix.eq_of_length hsame
      rw [ih hrests, List.mem_cons]
      exact ⟨.inr, fun hs => hs.elim (fun hs => hs ▸ heq ▸ htext) id⟩

/-- The longest of some ends of one text has all of them as ends. -/
theorem longest_cases (h : AreEnds text rests) : (rests = [] ∧ longest rests = []) ∨
    ∃ m ∈ rests, longest rests = [m] ∧ ∀ r ∈ rests, r <:+ m := by
  induction rests with
  | nil => exact .inl ⟨rfl, rfl⟩
  | cons r rests ih =>
    obtain ⟨hr, hrests⟩ := List.forall_mem_cons.1 h
    rw [longest]
    rcases ih hrests with ⟨rfl, hnone⟩ | ⟨m, hm, hlongest, hends⟩
    · rw [hnone]
      exact .inr ⟨r, List.mem_singleton_self r, rfl,
        List.forall_mem_singleton.2 (List.suffix_refl r)⟩
    · rw [hlongest]
      dsimp only
      split
      case isTrue hlt =>
        have hsuffix := List.suffix_of_suffix_length_le (hrests m hm) hr (Nat.le_of_lt hlt)
        exact .inr ⟨r, List.mem_cons_self, rfl, List.forall_mem_cons.2
          ⟨List.suffix_refl r, fun t ht => (hends t ht).trans hsuffix⟩⟩
      case isFalse hlt =>
        have hsuffix := List.suffix_of_suffix_length_le hr (hrests m hm) (Nat.le_of_not_lt hlt)
        exact .inr ⟨m, List.mem_cons_of_mem _ hm, rfl, List.forall_mem_cons.2 ⟨hsuffix, hends⟩⟩

theorem mem_afterAny (h : AreEnds text rests) : s ∈ afterAny rests ↔ ∃ u, u ++ s ∈ rests := by
  rw [afterAny]
  rcases longest_cases h with ⟨rfl, hnone⟩ | ⟨m, hm, hlongest, hends⟩
  · simp [hnone]
  · rw [hlongest, List.flatMap_singleton, mem_ends]
    constructor
    · rintro ⟨u, rfl⟩
      exact ⟨u, hm⟩
    · rintro ⟨u, hu⟩
      exact (List.suffix_append u s).trans (hends _ hu)

theorem mem_afterByte {admits : UInt8 → Bool} :
    s ∈ afterByte admits rests ↔ ∃ b, admits b = true ∧ b :: s ∈ rests := by
  rw [afterByte, List.mem_filterMap]
  constructor
  · rintro ⟨r, hr, hs⟩
    cases r with
    | nil => cases hs
    | cons b bs =>
      dsimp only at hs
      split at hs
      case isTrue hb =>
        cases hs
        exact ⟨b, hb, hr⟩
      case isFalse => cases hs
  · rintro ⟨b, hb, hs⟩
    exact ⟨b :: s, hs, if_pos hb⟩

theorem areEnds_afterByte {admits : UInt8 → Bool} (h : AreEnds text rests) :
    AreEnds text (afterByte admits rests) :=
  h.of_append fun s hs => by
    obtain ⟨b, -, hb⟩ := mem_afterByte.1 hs
    exact ⟨[b], hb⟩

theorem mem_afterBytes {bytes : List UInt8} :
    s ∈ afterBytes bytes rests ↔ bytes ++ s ∈ rests := by
  rw [afterBytes, List.mem_filterMap]
  constructor
  · rintro ⟨r, hr, hs⟩
    split at hs
    case isTrue hprefix =>
      obtain ⟨t, rfl⟩ := List.isPrefixOf_iff_prefix.1 hprefix
      rw [List.drop_left, Option.some.injEq] at hs
      rwa [← hs]
    case isFalse => cases hs
  · intro hs
    refine ⟨_, hs, ?_⟩
    rw [if_pos (List.isPrefixOf_iff_prefix.2 (List.prefix_append bytes s)), List.drop_left]

theorem mem_afterLeading (h : AreEnds text rests) :
    s ∈ afterLeading rests ↔ s ∈ rests ∨ ∃ front, front ++ 47 :: s ∈ rests := by
  have hbehind : ∀ t, t ∈ (longest rests).flatMap behindSeparators ↔
      ∃ front, front ++ 47 :: t ∈ rests := by
    intro t
    rcases longest_cases h with ⟨rfl, hnone⟩ | ⟨m, hm, hlongest, hends⟩
    · simp [hnone]
    · rw [hlongest, List.flatMap_singleton, mem_behindSeparators]
      constructor
      · rintro ⟨front, rfl⟩
        exact ⟨front, hm⟩
      · rintro ⟨front, hfront⟩
        obtain ⟨u, hu⟩ := hends _ hfront
        exact ⟨u ++ front, by rw [List.append_assoc, hu]⟩
  have hall : AreEnds text (rests ++ (longest rests).flatMap behindSeparators) := by
    refine List.forall_mem_append.2 ⟨h, h.of_append fun t ht => ?_⟩
    obtain ⟨front, hfront⟩ := (hbehind t).1 ht
    exact ⟨front ++ [47], by rwa [List.append_assoc]⟩
  rw [afterLeading, mem_distinct hall, List.mem_append, hbehind]

/-! ### Tokens -/

/-- What may be left of ends of one text behind something that covers the texts of a property. -/
def Leaves (after : List (List UInt8) → List (List UInt8)) (covers : List UInt8 → Prop) : Prop :=
  ∀ (text : List UInt8) (rests : List (List UInt8)), AreEnds text rests →
    ∀ s, s ∈ after rests ↔ ∃ u, covers u ∧ u ++ s ∈ rests

theorem Leaves.areEnds {f : List (List UInt8) → List (List UInt8)} {covers : List UInt8 → Prop}
    (hf : Leaves f covers) (h : AreEnds text rests) : AreEnds text (f rests) :=
  h.of_append fun s hs => by
    obtain ⟨u, -, hu⟩ := (hf text rests h s).1 hs
    exact ⟨u, hu⟩

mutual
/-- The matcher keeps what may be left behind a token. -/
theorem after_leaves : ∀ t : GlobToken, Leaves (after t) (Covers t)
  | .literal c, text, rests, h, s => by simp [after, Covers, mem_afterBytes]
  | .any, text, rests, h, s => by
    rw [after, mem_afterByte]
    constructor
    · rintro ⟨b, -, hb⟩
      exact ⟨[b], ⟨b, rfl⟩, hb⟩
    · rintro ⟨_, ⟨b, rfl⟩, hb⟩
      exact ⟨b, rfl, hb⟩
  | .star, text, rests, h, s => by simp [after, Covers, mem_afterAny h]
  | .leadingDirectories, text, rests, h, s => by
    rw [after, mem_afterLeading h]
    constructor
    · rintro (hs | ⟨front, hs⟩)
      · exact ⟨[], .inl rfl, hs⟩
      · exact ⟨front ++ [47], .inr ⟨front, rfl⟩, by rwa [List.append_assoc]⟩
    · rintro ⟨u, rfl | ⟨front, rfl⟩, hs⟩
      · exact .inl hs
      · exact .inr ⟨front, by rwa [List.append_assoc] at hs⟩
  | .everythingBelow, text, rests, h, s => by
    rw [after, mem_afterAny (areEnds_afterByte h)]
    simp only [mem_afterByte, beq_iff_eq, exists_eq_left]
    constructor
    · rintro ⟨below, hs⟩
      exact ⟨47 :: below, ⟨below, rfl⟩, hs⟩
    · rintro ⟨_, ⟨below, rfl⟩, hs⟩
      exact ⟨below, hs⟩
  | .betweenDirectories, text, rests, h, s => by
    have hbetween : afterBetween rests = afterLeading (afterByte (· == 47) rests) := rfl
    rw [after, hbetween, mem_afterLeading (areEnds_afterByte h)]
    simp only [mem_afterByte, beq_iff_eq, exists_eq_left]
    constructor
    · rintro (hs | ⟨between, hs⟩)
      · exact ⟨[47], .inl rfl, hs⟩
      · exact ⟨47 :: (between ++ [47]), .inr ⟨between, rfl⟩, by simpa using hs⟩
    · rintro ⟨_, rfl | ⟨between, rfl⟩, hs⟩
      · exact .inl hs
      · exact .inr ⟨between, by simpa using hs⟩
  | .oneOf negated ranges, text, rests, h, s => by
    rw [after, mem_afterByte]
    constructor
    · rintro ⟨b, hb, hs⟩
      exact ⟨[b], ⟨b, rfl, hb⟩, hs⟩
    · rintro ⟨_, ⟨b, rfl, hb⟩, hs⟩
      exact ⟨b, hb, hs⟩
  | .alternatives branches, text, rests, h, s => by
    have hbranches := afterBranches_leaves branches
    simp only [after, Covers]
    split
    case isTrue => simp
    case isFalse => rw [mem_distinct (hbranches.areEnds h), hbranches text rests h]
termination_by structural t => t

theorem afterBranch_leaves : ∀ ts : List GlobToken, Leaves (afterBranch ts) (CoversAll ts)
  | [], text, rests, h, s => by simp [afterBranch, CoversAll]
  | t :: ts, text, rests, h, s => by
    have ht := after_leaves t
    rw [afterBranch, afterBranch_leaves ts text _ (ht.areEnds h)]
    constructor
    · rintro ⟨more, hmore, hs⟩
      obtain ⟨first, hfirst, hs⟩ := (ht text rests h _).1 hs
      exact ⟨first ++ more, ⟨first, more, rfl, hfirst, hmore⟩, by rwa [List.append_assoc]⟩
    · rintro ⟨_, ⟨first, more, rfl, hfirst, hmore⟩, hs⟩
      rw [List.append_assoc] at hs
      exact ⟨more, hmore, (ht text rests h _).2 ⟨first, hfirst, hs⟩⟩
termination_by structural ts => ts

theorem afterBranches_leaves : ∀ branches : List (List GlobToken),
    Leaves (afterBranches branches) (CoversOne branches)
  | [], text, rests, h, s => by simp [afterBranches, CoversOne]
  | b :: branches, text, rests, h, s => by
    rw [afterBranches, List.mem_append, afterBranches_leaves branches text rests h]
    have hb := afterBranch_leaves b text rests h s
    cases hvoid : isVoidBranch b with
    | true => simp [CoversOne, hvoid]
    | false =>
      simp only [CoversOne, hvoid, Bool.false_eq_true, ↓reduceIte, hb, true_and, or_and_right,
        exists_or]
termination_by structural branches => branches
end

/-- The matcher finds the paths that the tokens stand for. A path that ends in a dot has no name to
be asked for. -/
theorem matchesPath_iff {g : Glob} {path : String} (h : g.tokens ≠ [.leadingDirectories]) :
    g.matchesPath path = true ↔
      (asksForName g.tokens = true → path.toList.getLast? ≠ some '.') ∧
        CoversAll g.tokens (Text.bytes path.toList) := by
  have hwhole : AreEnds (Text.bytes path.toList) [Text.bytes path.toList] :=
    List.forall_mem_singleton.2 (List.suffix_refl _)
  have hempty : (afterBranch g.tokens [Text.bytes path.toList]).any (·.isEmpty) = true ↔
      CoversAll g.tokens (Text.bytes path.toList) := by
    have hmem := afterBranch_leaves g.tokens _ _ hwhole []
    simp only [List.append_nil, List.mem_singleton, exists_eq_right] at hmem
    rw [← hmem, List.any_eq_true]
    simp only [List.isEmpty_iff, exists_eq_right]
  rw [matchesPath]
  split
  case h_1 hall => exact absurd hall h
  case h_2 =>
    have hform : path.toList.flatMap bytesOf = Text.bytes path.toList := rfl
    rw [hform, Bool.and_eq_true, hempty]
    cases asksForName g.tokens <;> simp

/-! ### Characters -/

/-- A byte below 128 in the form of a character is all of it. -/
theorem eq_singleton_of_mem_bytesOf {c : Char} {b : UInt8} (hb : b ∈ bytesOf c)
    (hlt : b.toNat < 128) : bytesOf c = [b] := by
  have hhigh : ∀ n, 128 ≤ n → n < 256 → ¬ (UInt8.ofNat n).toNat < 128 := by
    intro n hlow hbound
    rw [UInt8.toNat_ofNat']
    omega
  rw [bytesOf, String.utf8EncodeChar] at hb ⊢
  split at hb
  case isTrue hsmall => rw [if_pos hsmall, List.mem_singleton.1 hb]
  case isFalse =>
    -- the bytes of a longer form have their highest bit set
    refine absurd hlt ?_
    split at hb
    case isTrue =>
      simp only [List.mem_cons, List.not_mem_nil, or_false] at hb
      rcases hb with rfl | rfl <;> exact hhigh _ (by omega) (by omega)
    case isFalse =>
      split at hb
      all_goals
        simp only [List.mem_cons, List.not_mem_nil, or_false] at hb
      · rcases hb with rfl | rfl | rfl <;> exact hhigh _ (by omega) (by omega)
      · rcases hb with rfl | rfl | rfl | rfl <;> exact hhigh _ (by omega) (by omega)

theorem bytes_inj {xs ys : List Char} (h : Text.bytes xs = Text.bytes ys) : xs = ys := by
  have hstrings : String.ofList xs = String.ofList ys := by
    rw [← String.toByteArray_inj, String.toByteArray_ofList, String.toByteArray_ofList]
    exact congrArg List.toByteArray h
  exact String.ofList_injective hstrings

theorem bytes_cons (c : Char) (cs : List Char) :
    Text.bytes (c :: cs) = bytesOf c ++ Text.bytes cs := List.flatMap_cons

/-- A text in bytes comes apart at an ASCII character. -/
theorem parts_of_bytes {cs : List Char} {c : Char} {b : UInt8} (hc : bytesOf c = [b])
    (hb : b.toNat < 128) {front behind : List UInt8} (h : Text.bytes cs = front ++ b :: behind) :
    ∃ before after, cs = before ++ c :: after ∧ Text.bytes before = front ∧
      Text.bytes after = behind := by
  induction cs generalizing front with
  | nil => cases front <;> cases h
  | cons d cs ih =>
    rw [bytes_cons] at h
    rcases List.append_eq_append_iff.1 h with ⟨more, rfl, hmore⟩ | ⟨more, hd, hmore⟩
    · obtain ⟨before, after, rfl, rfl, rfl⟩ := ih hmore
      exact ⟨d :: before, after, rfl, bytes_cons d before, rfl⟩
    · cases more with
      | nil =>
        have hrest : Text.bytes cs = [] ++ b :: behind := hmore.symm
        obtain ⟨before, after, rfl, hbefore, rfl⟩ := ih hrest
        refine ⟨d :: before, after, rfl, ?_, rfl⟩
        rw [bytes_cons, hbefore, hd, List.append_nil, List.append_nil]
      | cons e more =>
        obtain ⟨rfl, rfl⟩ := List.cons.inj hmore
        have hmem : b ∈ bytesOf d := by simp [hd]
        have hform := eq_singleton_of_mem_bytesOf hmem hb
        have hsame : [d] = [c] := bytes_inj (by
          rw [bytes_cons, bytes_cons, hform, hc])
        obtain rfl := List.singleton_inj.1 hsame
        have hlength : 1 = front.length + (more.length + 1) := by
          simpa using congrArg List.length (hform.symm.trans hd)
        obtain rfl : front = [] := List.length_eq_zero_iff.1 (by omega)
        obtain rfl : more = [] := List.length_eq_zero_iff.1 (by omega)
        exact ⟨[], cs, rfl, rfl, rfl⟩

/-! ### Names and endings -/

def literals (cs : List Char) : List GlobToken := cs.map .literal

theorem coversAll_literals {cs : List Char} {ts : List GlobToken} {bs : List UInt8} :
    CoversAll (literals cs ++ ts) bs ↔ ∃ more, bs = Text.bytes cs ++ more ∧ CoversAll ts more := by
  induction cs generalizing bs with
  | nil => simp [literals]
  | cons c cs ih =>
    change CoversAll (.literal c :: (literals cs ++ ts)) bs ↔ _
    simp only [CoversAll, Covers, ih, bytes_cons]
    constructor
    · rintro ⟨_, _, rfl, rfl, more, rfl, hmore⟩
      exact ⟨more, (List.append_assoc ..).symm, hmore⟩
    · rintro ⟨more, rfl, hmore⟩
      exact ⟨_, _, List.append_assoc .., rfl, more, rfl, hmore⟩

/-- The tokens for everything below directories of one name. -/
def insideTokens (name : List Char) : List GlobToken :=
  .leadingDirectories :: (literals name ++ [.everythingBelow])

/-- The tokens for all names with one ending. -/
def endingTokens (ending : List Char) : List GlobToken :=
  .leadingDirectories :: .star :: literals ending

theorem bytesOf_slash : bytesOf '/' = [47] := by decide

theorem coversAll_inside {name cs : List Char} :
    CoversAll (insideTokens name) (Text.bytes cs) ↔
      (∃ after, cs = name ++ '/' :: after) ∨
        ∃ before after, cs = before ++ '/' :: (name ++ '/' :: after) := by
  have hparts : ∀ {text : List Char} {more : List UInt8},
      Text.bytes text = Text.bytes name ++ 47 :: more → ∃ after, text = name ++ '/' :: after := by
    intro text more h
    obtain ⟨before, after, rfl, hbefore, -⟩ := parts_of_bytes bytesOf_slash (by decide) h
    exact ⟨after, by rw [bytes_inj hbefore]⟩
  simp only [insideTokens, CoversAll, Covers, coversAll_literals]
  constructor
  · rintro ⟨first, _, hbytes, hfirst, _, rfl, _, _, rfl, ⟨below, rfl⟩, rfl⟩
    rw [List.append_nil] at hbytes
    rcases hfirst with rfl | ⟨front, rfl⟩
    · exact .inl (hparts hbytes)
    · rw [List.append_assoc] at hbytes
      obtain ⟨before, after, rfl, -, hafter⟩ := parts_of_bytes bytesOf_slash (by decide) hbytes
      obtain ⟨after, rfl⟩ := hparts hafter
      exact .inr ⟨before, after, rfl⟩
  · have hname : ∀ after, Text.bytes (name ++ '/' :: after) =
        Text.bytes name ++ 47 :: Text.bytes after := by
      intro after
      rw [Text.bytes_append, bytes_cons, bytesOf_slash]
      rfl
    have hinside : ∀ after, ∃ more, Text.bytes name ++ 47 :: Text.bytes after =
        Text.bytes name ++ more ∧ ∃ first more', more = first ++ more' ∧
          (∃ below, first = 47 :: below) ∧ more' = [] := fun after =>
      ⟨_, rfl, _, [], (List.append_nil _).symm, ⟨_, rfl⟩, rfl⟩
    rintro (⟨after, rfl⟩ | ⟨before, after, rfl⟩)
    · exact ⟨[], _, hname after, .inl rfl, hinside after⟩
    · refine ⟨Text.bytes before ++ [47], _, ?_, .inr ⟨_, rfl⟩, hinside after⟩
      rw [Text.bytes_append, bytes_cons, bytesOf_slash, hname, List.append_assoc]

theorem coversAll_ending {c : Char} {b : UInt8} {ending cs : List Char} (hc : bytesOf c = [b])
    (hb : b.toNat < 128) :
    CoversAll (endingTokens (c :: ending)) (Text.bytes cs) ↔ c :: ending <:+ cs := by
  have hliterals : ∀ bs, CoversAll (literals (c :: ending)) bs ↔ bs = Text.bytes (c :: ending) := by
    intro bs
    have h : CoversAll (literals (c :: ending) ++ []) bs ↔ _ := coversAll_literals
    simpa [CoversAll] using h
  simp only [endingTokens, CoversAll, Covers, hliterals, bytes_cons, hc]
  constructor
  · rintro ⟨first, _, hbytes, -, any, _, rfl, -, rfl⟩
    rw [← List.append_assoc] at hbytes
    obtain ⟨before, after, rfl, -, hafter⟩ := parts_of_bytes hc hb hbytes
    rw [bytes_inj hafter]
    exact List.suffix_append _ _
  · rintro ⟨before, rfl⟩
    have hbytes : Text.bytes (before ++ c :: ending) =
        Text.bytes before ++ ([b] ++ Text.bytes ending) := by
      rw [Text.bytes_append, bytes_cons, hc]
    exact ⟨[], _, hbytes, .inl rfl, _, _, rfl, trivial, rfl⟩

end ParamLowering.Glob
