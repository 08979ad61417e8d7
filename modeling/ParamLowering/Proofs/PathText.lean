import Mathlib.Data.List.Basic
import Mathlib.Data.List.TakeWhile
import ParamLowering.SourceFile
set_option autoImplicit false

/-!
Texts of paths below a directory.

A path that is joined from a base and from names has the components of the base and behind them
the names, however the base was written.
-/

namespace ParamLowering.Path

/-- A name that an entry of a directory may have. -/
structure IsName (name : String) : Prop where
  nonempty : name.toList ≠ []
  notDot : name.toList ≠ ['.']
  notDots : name.toList ≠ ['.', '.']
  noSeparator : '/' ∉ name.toList

instance (name : String) : Decidable (IsName name) :=
  decidable_of_iff (name.toList ≠ [] ∧ name.toList ≠ ['.'] ∧ name.toList ≠ ['.', '.'] ∧
      '/' ∉ name.toList)
    ⟨fun ⟨h₁, h₂, h₃, h₄⟩ => ⟨h₁, h₂, h₃, h₄⟩, fun h => ⟨h.1, h.2, h.3, h.4⟩⟩

/-- Names as a path from one to the next. -/
def joined (names : List String) : String := "/".intercalate names

/-! ### Pieces -/

theorem pieces_ne_nil (cs : List Char) : pieces cs ≠ [] := by
  cases cs with
  | nil => exact List.cons_ne_nil _ _
  | cons c cs =>
    rw [pieces]
    split
    · exact List.cons_ne_nil _ _
    · split <;> exact List.cons_ne_nil _ _

theorem pieces_append (a b : List Char) : pieces (a ++ '/' :: b) = pieces a ++ pieces b := by
  induction a with
  | nil => rfl
  | cons c a ih =>
    rw [List.cons_append, pieces, pieces, ih]
    by_cases hc : c = '/'
    · rw [if_pos hc, if_pos hc, List.cons_append]
    · rw [if_neg hc, if_neg hc]
      cases hpieces : pieces a with
      | nil => exact absurd hpieces (pieces_ne_nil a)
      | cons p ps => rfl

theorem pieces_of_notMem {a : List Char} (h : '/' ∉ a) : pieces a = [a] := by
  induction a with
  | nil => rfl
  | cons c a ih =>
    obtain ⟨hc, ha⟩ := not_or.1 (mt List.mem_cons.2 h)
    rw [pieces, if_neg fun heq => hc heq.symm, ih ha]

theorem toList_joined_cons (name : String) {names : List String} (h : names ≠ []) :
    (joined (name :: names)).toList = name.toList ++ '/' :: (joined names).toList := by
  obtain ⟨second, names, rfl⟩ := List.exists_cons_of_ne_nil h
  simp [joined, String.intercalate_cons_cons]

theorem pieces_joined {names : List String} (hne : names ≠ []) (h : ∀ n ∈ names, IsName n) :
    pieces (joined names).toList = names.map String.toList := by
  induction names with
  | nil => exact absurd rfl hne
  | cons name names ih =>
    obtain ⟨hname, hnames⟩ := List.forall_mem_cons.1 h
    by_cases hlast : names = []
    · subst hlast
      simpa [joined] using pieces_of_notMem hname.noSeparator
    · rw [toList_joined_cons name hlast, pieces_append, pieces_of_notMem hname.noSeparator,
        ih hlast hnames]
      rfl

/-- A path made of names begins with a character of the first one. -/
theorem joined_head {names : List String} (hne : names ≠ []) (h : ∀ n ∈ names, IsName n) :
    ∃ c cs, (joined names).toList = c :: cs ∧ c ≠ '/' ∧
      (c = '.' → ∃ d ds, cs = d :: ds ∧ d ≠ '/') := by
  obtain ⟨name, names, rfl⟩ := List.exists_cons_of_ne_nil hne
  have hname := (List.forall_mem_cons.1 h).1
  obtain ⟨c, cs, hcs⟩ := List.exists_cons_of_ne_nil hname.nonempty
  have hslash : '/' ∉ c :: cs := hcs ▸ hname.noSeparator
  obtain ⟨hc, hcs'⟩ := not_or.1 (mt List.mem_cons.2 hslash)
  have hlong : c = '.' → ∃ d ds, cs = d :: ds ∧ d ≠ '/' := by
    rintro rfl
    obtain ⟨d, ds, rfl⟩ := List.exists_cons_of_ne_nil fun hnil => hname.notDot (hnil ▸ hcs)
    exact ⟨d, ds, rfl, fun hd => hcs' (hd ▸ List.mem_cons_self)⟩
  by_cases hlast : names = []
  · subst hlast
    exact ⟨c, cs, by simpa [joined] using hcs, Ne.symm hc, hlong⟩
  · refine ⟨c, cs ++ '/' :: (joined names).toList, ?_, Ne.symm hc, fun hdot => ?_⟩
    · rw [toList_joined_cons name hlast, hcs, List.cons_append]
    · obtain ⟨d, ds, rfl, hd⟩ := hlong hdot
      exact ⟨d, ds ++ '/' :: (joined names).toList, rfl, hd⟩

/-! ### Joining -/

variable {names : List String}

theorem isAbsolute_joined (hne : names ≠ []) (h : ∀ n ∈ names, IsName n) :
    isAbsolute (joined names) = false := by
  obtain ⟨c, cs, hcs, hc, -⟩ := joined_head hne h
  simp [isAbsolute, hcs, hc]

/-- The base comes first, and a separator where it has none at its end. -/
theorem toList_join (base : String) (hne : names ≠ []) (h : ∀ n ∈ names, IsName n) :
    (base.toList = [] ∧ (join base (joined names)).toList = (joined names).toList) ∨
    (∃ front, base.toList = front ++ ['/'] ∧
      (join base (joined names)).toList = front ++ '/' :: (joined names).toList) ∨
    (base.toList ≠ [] ∧
      (join base (joined names)).toList = base.toList ++ '/' :: (joined names).toList) := by
  rw [join, isAbsolute_joined hne h, if_neg Bool.false_ne_true]
  by_cases hempty : base.toList = []
  · have hbase : base = "" := String.toList_inj.1 hempty
    subst hbase
    exact .inl ⟨rfl, by simp⟩
  have hnot : base.isEmpty = false := by simpa using hempty
  by_cases hlast : base.toList.getLast? = some '/'
  · obtain ⟨front, hfront⟩ := List.getLast?_eq_some_iff.1 hlast
    refine .inr (.inl ⟨front, hfront, ?_⟩)
    simp [hfront]
  · refine .inr (.inr ⟨hempty, ?_⟩)
    simp [hlast, hnot]

/-- The pieces of the base and the names; an empty piece at the end of the base goes. -/
theorem pieces_join (base : String) (hne : names ≠ []) (h : ∀ n ∈ names, IsName n) :
    ∃ front, pieces (join base (joined names)).toList = front ++ names.map String.toList ∧
      (pieces base.toList = front ∨ pieces base.toList = front ++ [[]]) := by
  rcases toList_join base hne h with ⟨hbase, hjoin⟩ | ⟨front, hbase, hjoin⟩ | ⟨-, hjoin⟩
  · exact ⟨[], by rw [hjoin, pieces_joined hne h, List.nil_append], .inr (by rw [hbase]; rfl)⟩
  · exact ⟨pieces front, by rw [hjoin, pieces_append, pieces_joined hne h],
      .inr (by rw [hbase, pieces_append]; rfl)⟩
  · exact ⟨pieces base.toList, by rw [hjoin, pieces_append, pieces_joined hne h], .inl rfl⟩

/-- A text comes apart at a separator wherever its pieces do. -/
theorem split_of_pieces {cs : List Char} {first second : List (List Char)}
    (h : pieces cs = first ++ second) (hfirst : first ≠ []) (hsecond : second ≠ []) :
    ∃ a b, cs = a ++ '/' :: b ∧ pieces a = first ∧ pieces b = second := by
  obtain ⟨p, first, rfl⟩ := List.exists_cons_of_ne_nil hfirst
  induction cs generalizing p first with
  | nil =>
    obtain ⟨-, hrest⟩ := List.cons.inj h
    exact absurd (List.append_eq_nil_iff.1 hrest.symm).2 hsecond
  | cons c cs ih =>
    rw [pieces] at h
    split at h
    case isTrue hc =>
      subst hc
      obtain ⟨rfl, hrest⟩ := List.cons.inj h
      by_cases hmore : first = []
      · subst hmore
        exact ⟨[], cs, rfl, rfl, hrest⟩
      · obtain ⟨q, first, rfl⟩ := List.exists_cons_of_ne_nil hmore
        obtain ⟨a, b, rfl, ha, hb⟩ := ih q first hrest (List.cons_ne_nil _ _)
        exact ⟨'/' :: a, b, rfl, congrArg _ ha, hb⟩
    case isFalse hc =>
      cases hpieces : pieces cs with
      | nil => exact absurd hpieces (pieces_ne_nil cs)
      | cons q ps =>
        rw [hpieces] at h
        obtain ⟨rfl, rfl⟩ := List.cons.inj h
        obtain ⟨a, b, rfl, ha, hb⟩ := ih q first hpieces (List.cons_ne_nil _ _)
        exact ⟨c :: a, b, rfl, by rw [pieces, if_neg hc, ha], hb⟩

theorem eq_of_pieces_eq_singleton {cs p : List Char} (h : pieces cs = [p]) : cs = p := by
  by_cases hslash : '/' ∈ cs
  · obtain ⟨a, b, rfl⟩ := List.append_of_mem hslash
    obtain ⟨q, qs, hq⟩ := List.exists_cons_of_ne_nil (pieces_ne_nil b)
    obtain ⟨r, rs, hr⟩ := List.exists_cons_of_ne_nil (pieces_ne_nil a)
    rw [pieces_append, hq, hr] at h
    simp at h
  · rw [pieces_of_notMem hslash] at h
    exact List.singleton_inj.1 h

/-- A piece in front of a separator stands at the start of the text or behind another one. -/
theorem mem_dropLast_pieces {p cs : List Char} (hp : '/' ∉ p) :
    p ∈ (pieces cs).dropLast ↔ (∃ after, cs = p ++ '/' :: after) ∨
      ∃ before after, cs = before ++ '/' :: (p ++ '/' :: after) := by
  constructor
  · intro h
    obtain ⟨first, second, hsplit⟩ := List.append_of_mem h
    have hall : pieces cs = (first ++ [p]) ++
        (second ++ [(pieces cs).getLast (pieces_ne_nil cs)]) := by
      refine (List.dropLast_append_getLast (pieces_ne_nil cs)).symm.trans ?_
      rw [hsplit, List.append_assoc, List.append_assoc]
      rfl
    obtain ⟨a, after, rfl, ha, -⟩ := split_of_pieces hall (by simp) (by simp)
    by_cases hfirst : first = []
    · subst hfirst
      exact .inl ⟨after, by rw [eq_of_pieces_eq_singleton ha]⟩
    · obtain ⟨before, b, rfl, -, hb⟩ := split_of_pieces ha hfirst (List.cons_ne_nil _ _)
      exact .inr ⟨before, after, by rw [eq_of_pieces_eq_singleton hb, List.append_assoc]; rfl⟩
  · rintro (⟨after, rfl⟩ | ⟨before, after, rfl⟩)
    · rw [pieces_append, pieces_of_notMem hp, List.dropLast_append_of_ne_nil (pieces_ne_nil after)]
      exact List.mem_append_left _ (List.mem_singleton_self p)
    · rw [pieces_append, pieces_append, pieces_of_notMem hp, ← List.append_assoc,
        List.dropLast_append_of_ne_nil (pieces_ne_nil after)]
      simp

/-- The names in front of the last one are those of the base and those below it. -/
theorem mem_dropLast_pieces_join (base : String) (hne : names ≠ []) (h : ∀ n ∈ names, IsName n)
    {p : List Char} (hp : p ≠ []) :
    p ∈ (pieces (join base (joined names)).toList).dropLast ↔
      p ∈ pieces base.toList ∨ p ∈ (pieces (joined names).toList).dropLast := by
  obtain ⟨front, hjoin, hbase⟩ := pieces_join base hne h
  have hmap : names.map String.toList ≠ [] := fun heq => hne (List.map_eq_nil_iff.1 heq)
  rw [hjoin, pieces_joined hne h, List.dropLast_append_of_ne_nil hmap, List.mem_append]
  rcases hbase with hbase | hbase
  · rw [hbase]
  · simp [hbase, hp]

/-- An ending without a separator is one of what is below the base. -/
theorem suffix_join_iff (base : String) (hne : names ≠ []) (h : ∀ n ∈ names, IsName n)
    {ending : List Char} (hending : '/' ∉ ending) :
    ending <:+ (join base (joined names)).toList ↔ ending <:+ (joined names).toList := by
  have hbehind : ∀ front : List Char, ending <:+ front ++ '/' :: (joined names).toList ↔
      ending <:+ (joined names).toList := by
    intro front
    constructor
    · intro hsuffix
      rcases List.suffix_or_suffix_of_suffix hsuffix (List.suffix_append front _) with hin | hover
      · rcases List.suffix_cons_iff.1 hin with rfl | hin
        · exact absurd List.mem_cons_self hending
        · exact hin
      · exact absurd (hover.subset List.mem_cons_self) hending
    · exact fun hsuffix => (hsuffix.trans (List.suffix_cons _ _)).trans (List.suffix_append front _)
  rcases toList_join base hne h with ⟨-, hjoin⟩ | ⟨front, -, hjoin⟩ | ⟨-, hjoin⟩
  · rw [hjoin]
  · rw [hjoin, hbehind]
  · rw [hjoin, hbehind]

/-! ### Components -/

/-- What stands before the first separator. -/
def firstPiece (cs : List Char) : List Char := cs.takeWhile (· != '/')

/-- What a path has in front of its names. -/
def lead (cs : List Char) : List PathComponent :=
  if cs.head? = some '/' then [.root] else if firstPiece cs = ['.'] then [.current] else []

theorem components_eq (path : String) :
    components path = lead path.toList ++ (pieces path.toList).filterMap component? := by
  rw [components]
  generalize path.toList = cs
  split
  case h_1 => rfl
  case h_2 => rfl
  case h_3 => rfl
  case h_4 hslash hdot hslashDot =>
    have hlead : lead cs = [] := by
      match cs with
      | [] => rfl
      | [c] =>
        have hc : c ≠ '/' := by rintro rfl; exact hslash [] rfl
        have hd : c ≠ '.' := by rintro rfl; exact hdot rfl
        simp [lead, firstPiece, hc, hd]
      | c :: d :: cs =>
        have hc : c ≠ '/' := by rintro rfl; exact hslash _ rfl
        have hd : c = '.' → d ≠ '/' := by rintro rfl rfl; exact hslashDot _ rfl
        by_cases hdSlash : d = '/' <;> simp_all [lead, firstPiece]
    rw [hlead, List.nil_append]

theorem firstPiece_append (front a : List Char) :
    firstPiece (front ++ '/' :: a) = firstPiece front := by
  induction front with
  | nil => rfl
  | cons c front ih =>
    rw [firstPiece, firstPiece, List.cons_append, List.takeWhile_cons, List.takeWhile_cons]
    split
    · exact congrArg (c :: ·) ih
    · rfl

/-- Names behind a base leave what it has in front as it is. -/
theorem lead_join (base : String) (hne : names ≠ []) (h : ∀ n ∈ names, IsName n) :
    lead (join base (joined names)).toList = lead base.toList := by
  have hsame : ∀ front a b : List Char, lead (front ++ '/' :: a) = lead (front ++ '/' :: b) := by
    intro front a b
    rw [lead, lead, firstPiece_append, firstPiece_append]
    cases front <;> rfl
  rcases toList_join base hne h with ⟨hbase, hjoin⟩ | ⟨front, hbase, hjoin⟩ | ⟨hbase, hjoin⟩
  · obtain ⟨c, cs, hcs, hc, hdot⟩ := joined_head hne h
    rw [hjoin, hbase, hcs]
    by_cases hcDot : c = '.'
    · obtain ⟨d, ds, rfl, hd⟩ := hdot hcDot
      simp [lead, firstPiece, hc, hd]
    · simp [lead, firstPiece, hc, hcDot]
  · rw [hjoin, hbase]
    exact hsame front _ []
  · obtain ⟨c, front, hfront⟩ := List.exists_cons_of_ne_nil hbase
    rw [hjoin, lead, lead, firstPiece_append, hfront]
    rfl

theorem component?_name {name : String} (h : IsName name) :
    component? name.toList = some (.name name) := by
  rw [component?.eq_def]
  split
  case h_1 heq => exact absurd heq h.nonempty
  case h_2 heq => exact absurd heq h.notDot
  case h_3 heq => exact absurd heq h.notDots
  case h_4 => rw [String.ofList_toList]

/-- A path below a base has the components of the base, and then the names. -/
theorem components_join (base : String) (hne : names ≠ []) (h : ∀ n ∈ names, IsName n) :
    components (join base (joined names)) = components base ++ names.map .name := by
  have hnames : (names.map String.toList).filterMap component? = names.map .name := by
    rw [List.filterMap_map, ← List.filterMap_eq_map]
    exact List.filterMap_congr fun n hn => component?_name (h n hn)
  obtain ⟨front, hjoin, hbase⟩ := pieces_join base hne h
  have hfront : (pieces base.toList).filterMap component? = front.filterMap component? := by
    rcases hbase with hbase | hbase
    · rw [hbase]
    · rw [hbase, List.filterMap_append]
      exact List.append_nil _
  rw [components_eq, components_eq base, lead_join base hne h, hjoin, List.filterMap_append, hnames,
    hfront, List.append_assoc]

theorem fileName?_join (base : String) {name : String} (hlast : names.getLast? = some name)
    (h : ∀ n ∈ names, IsName n) : fileName? (join base (joined names)) = some name := by
  have hne : names ≠ [] := by
    rintro rfl
    cases hlast
  rw [fileName?, components_join base hne h, List.getLast?_append, List.getLast?_map, hlast]
  rfl

theorem fileName?_name {name : String} (h : IsName name) : fileName? name = some name := by
  have hjoin : join "" (joined [name]) = name := by
    rw [join, isAbsolute_joined (List.cons_ne_nil _ _) (List.forall_mem_singleton.2 h)]
    simp [joined]
  have hname : fileName? (join "" (joined [name])) = some name :=
    fileName?_join "" rfl (List.forall_mem_singleton.2 h)
  rwa [hjoin] at hname

/-! ### Extensions -/

/-- A name that is more than an extension, which is one of those of source files. -/
def HasSourceExtension (name : String) : Prop :=
  ∃ stem extension : String, name = stem ++ "." ++ extension ∧ stem ≠ "" ∧
    extension ∈ SourceFile.extensions

theorem takeWhile_to_dot {a b : List Char} (h : '.' ∉ a) :
    (a ++ '.' :: b).takeWhile (· != '.') = a := by
  rw [List.takeWhile_append_of_pos]
  · simp
  · intro c hc
    simpa using fun heq : c = '.' => h (heq ▸ hc)

/-- A text in which a dot stands is cut at the last one. -/
theorem extension?_dotted {path name : String} (h : fileName? path = some name)
    {stem extension : List Char} (hname : name.toList = stem ++ '.' :: extension)
    (hdot : '.' ∉ extension) :
    extension? path = if stem = [] then none else some (String.ofList extension) := by
  have hreversed : name.toList.reverse = extension.reverse ++ '.' :: stem.reverse := by
    rw [hname]
    simp
  have hafter : '.' ∉ extension.reverse := mt List.mem_reverse.1 hdot
  rw [extension?, h, Option.bind_some, hreversed]
  dsimp only
  rw [takeWhile_to_dot hafter, List.drop_left, List.reverse_reverse]
  cases hstem : stem.reverse with
  | nil =>
    rw [if_pos (List.reverse_eq_nil_iff.1 hstem)]
    rfl
  | cons c cs =>
    have hne : stem ≠ [] := by
      rintro rfl
      cases hstem
    rw [if_neg hne]
    rfl

theorem extension?_undotted {path name : String} (h : fileName? path = some name)
    (hname : '.' ∉ name.toList) : extension? path = none := by
  have hall : name.toList.reverse.takeWhile (· != '.') = name.toList.reverse := by
    refine List.takeWhile_eq_self_iff.2 fun c hc => ?_
    simpa using fun heq : c = '.' => hname (heq ▸ List.mem_reverse.1 hc)
  rw [extension?, h, Option.bind_some]
  dsimp only
  rw [hall, List.drop_length]

theorem isSupported_iff {path name : String} (h : fileName? path = some name) :
    SourceFile.isSupported path = true ↔ HasSourceExtension name := by
  have hdots : ∀ e ∈ SourceFile.extensions, '.' ∉ e.toList := by decide
  rw [SourceFile.isSupported]
  constructor
  · intro hsupported
    by_cases hdot : '.' ∈ name.toList
    · -- the last dot of the name
      obtain ⟨after, before, hsplit, hafter⟩ :=
        List.eq_append_cons_of_mem (List.mem_reverse.2 hdot)
      have hname : name.toList = before.reverse ++ '.' :: after.reverse := by
        rw [← List.reverse_reverse name.toList, hsplit]
        simp
      rw [extension?_dotted h hname (mt List.mem_reverse.1 hafter)] at hsupported
      by_cases hstem : before.reverse = []
      · rw [if_pos hstem] at hsupported
        cases hsupported
      · rw [if_neg hstem] at hsupported
        refine ⟨String.ofList before.reverse, String.ofList after.reverse, ?_, ?_, ?_⟩
        · refine String.toList_inj.1 ?_
          simp [hname]
        · exact fun heq => hstem (by simpa using heq)
        · simpa using hsupported
    · rw [extension?_undotted h hdot] at hsupported
      cases hsupported
  · rintro ⟨stem, extension, rfl, hstem, hextension⟩
    have hne : stem.toList ≠ [] := fun heq => hstem (String.toList_inj.1 heq)
    have hname : (stem ++ "." ++ extension).toList = stem.toList ++ '.' :: extension.toList := by
      simp
    rw [extension?_dotted h hname (hdots extension hextension), if_neg hne, String.ofList_toList]
    simpa using hextension

end ParamLowering.Path
