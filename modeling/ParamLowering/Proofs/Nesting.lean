import Mathlib.Data.List.Pairwise
import ParamLowering.Proofs.ReadList
set_option autoImplicit false

/-!
Functions to be lowered never stand in each other's parameter lists.

All that is asked of a tree is that ranges nest: parts inside their construct, side by side, and
parameters in front of the body. The ranges may be the spans of the parts or any others; only list
elements and bodies have to stand where their spans say. No text is looked at.
-/

namespace ParamLowering

open ParamLowering.Tree

/-! ### Trees whose ranges nest -/

namespace Tree

/-- A function in a range: its parameters side by side in `ps`, in front of the body, and the
statements of the body in `bs`. -/
structure FunctionNests (r : Span) (params : List Target) (bodySpan : Span) (ps bs : List Span) :
    Prop where
  elements : ∀ t ∈ params, ∀ s ∈ t.elements, s.Within ⟨r.start, bodySpan.start⟩
  params : (⟨r.start, bodySpan.start⟩ : Span).Spread ps
  nonempty : bodySpan.start < bodySpan.stop
  within : bodySpan.Within r
  statements : bodySpan.Spread bs

mutual
/-- The ranges of a part of the tree nest, with the part itself in `r`. -/
def Node.Nested : Node → Span → Prop
  | .name _, _ | .functionName _, _ | .className _, _ => True
  | .group _ parts, r => ∃ rs, r.Spread rs ∧ Node.AllNested parts rs
  | .function _ _ params bodySpan body, r => ∃ ps bs, FunctionNests r params bodySpan ps bs ∧
    Target.AllNested params ps ∧ Node.AllNested body bs
  | .closure _ params body, r | .handler _ params body, r => ∃ ps bs, r.Spread (ps ++ bs) ∧
    Target.AllNested params ps ∧ Node.AllNested body bs
  | .block _ body, r => ∃ rs, r.Spread rs ∧ Node.AllNested body rs
  | .declaration _ _ targets, r => ∃ rs, r.Spread rs ∧ Target.AllNested targets rs

def Node.AllNested : List Node → List Span → Prop
  | [], rs => rs = []
  | n :: ns, rs => ∃ r rest, rs = r :: rest ∧ n.Nested r ∧ Node.AllNested ns rest

def Target.Nested : Target → Span → Prop
  | .name _ _ notes, r => ∃ rs, r.Spread rs ∧ Node.AllNested notes rs
  | .object _ fields notes, r => ∃ fs ns, r.Spread (fs ++ ns) ∧
    Field.AllNested fields fs ∧ Node.AllNested notes ns
  | .array _ slots notes, r => ∃ ss ns, r.Spread (ss ++ ns) ∧
    Slot.AllNested slots ss ∧ Node.AllNested notes ns
  | .rest _ target notes, r => ∃ t ns, r.Spread (t :: ns) ∧
    target.Nested t ∧ Node.AllNested notes ns
  | .withDefault target value, r => ∃ t v, r.Spread [t, v] ∧ target.Nested t ∧ value.Nested v
  | .undeclared target, r => target.Nested r

def Target.AllNested : List Target → List Span → Prop
  | [], rs => rs = []
  | t :: ts, rs => ∃ r rest, rs = r :: rest ∧ t.Nested r ∧ Target.AllNested ts rest

def Field.Nested : Field → Span → Prop
  | .keyed _ keyParts value, r => ∃ ks v, r.Spread (ks ++ [v]) ∧
    Node.AllNested keyParts ks ∧ value.Nested v
  | .shorthand _ none, _ => True
  | .shorthand _ (some value), r => value.Nested r
  | .rest target, r => target.Nested r

def Field.AllNested : List Field → List Span → Prop
  | [], rs => rs = []
  | f :: fs, rs => ∃ r rest, rs = r :: rest ∧ f.Nested r ∧ Field.AllNested fs rest

def Slot.AllNested : List Slot → List Span → Prop
  | [], rs => rs = []
  | .hole :: ss, rs => ∃ r rest, rs = r :: rest ∧ Slot.AllNested ss rest
  | .item target :: ss, rs => ∃ r rest, rs = r :: rest ∧ target.Nested r ∧ Slot.AllNested ss rest
end

/-- The statements of a file stand side by side, and the ranges of each nest. -/
def Nested (statements : List Node) : Prop :=
  ∃ rs, rs.Pairwise Span.Apart ∧ Node.AllNested statements rs

end Tree

/-! ### Lists -/

namespace ParamList

/-- The ranges of everything that was read. -/
def listed (list : ParamList) : List Span :=
  list.thisParam.toList ++ list.params.map (·.span) ++ list.defaults.map (·.span) ++
    (list.rest.map (·.span)).toList

theorem listed_of_add {list list' : ParamList} {t : Target} (h : list.add t = .ok list') {s : Span}
    (hs : s ∈ list'.listed) : s ∈ list.listed ∨ s ∈ t.elements := by
  rcases add_eq_ok h with ⟨span, id, idSpan, ns, notes, rfl, rfl⟩ |
    ⟨inner, value, p, rfl, hp, rfl⟩ | ⟨-, p, hp, rfl⟩
  · simp only [listed, Target.elements, Target.span] at hs ⊢
    grind
  · simp only [listed, Target.elements] at hs ⊢
    grind
  · have helements : t.elements = [t.span] := by
      cases t with
      | withDefault target value => cases hp
      | name | object | array | rest | undeclared => rfl
    simp only [listed, helements] at hs ⊢
    grind

theorem listed_of_addAll {list list' : ParamList} {ts : List Target}
    (h : list.addAll ts = .ok list') {s : Span} (hs : s ∈ list'.listed) :
    s ∈ list.listed ∨ ∃ t ∈ ts, s ∈ t.elements := by
  induction ts generalizing list with
  | nil =>
    obtain rfl := Except.ok.inj h
    exact .inl hs
  | cons t ts ih =>
    obtain ⟨next, hnext, hmore⟩ := addAll_cons h
    rcases ih hmore with hs | ⟨u, hu, hs⟩
    · rcases listed_of_add hnext hs with hs | hs
      · exact .inl hs
      · exact .inr ⟨t, by simp, hs⟩
    · exact .inr ⟨u, List.mem_cons_of_mem t hu, hs⟩

/-- What is read as a list stands in the list. -/
theorem listed_of_ofTargets {list : ParamList} {ts : List Target} (h : ofTargets ts = .ok list)
    {s : Span} (hs : s ∈ list.listed) : ∃ t ∈ ts, s ∈ t.elements := by
  have hempty : s ∉ ({} : ParamList).listed := by simp [listed]
  rcases ofTargets_cases ts with ⟨heq, -⟩ | ⟨id, span, notes, more, rfl, -, heq⟩
  · exact (listed_of_addAll (heq.symm.trans h) hs).resolve_left hempty
  · rcases listed_of_addAll (heq.symm.trans h) hs with hs | ⟨t, ht, hs⟩
    · refine ⟨_, List.mem_cons_self, ?_⟩
      simpa [listed, Target.elements, Target.span] using hs
    · exact ⟨t, List.mem_cons_of_mem _ ht, hs⟩

end ParamList

namespace FunctionNode

/-- Where the first element of the list begins; without elements, the body. -/
def regionStart (f : FunctionNode) : Nat :=
  f.list.listed.foldr (fun s least => min s.start least) f.body.span.start

/-- The text from the parameter list to the end of the body. -/
def region (f : FunctionNode) : Span := ⟨f.regionStart, f.body.span.stop⟩

/-- The text of the parameter list. -/
def listRange (f : FunctionNode) : Span := ⟨f.regionStart, f.body.span.start⟩

theorem regionStart_le_body (f : FunctionNode) : f.regionStart ≤ f.body.span.start := by
  unfold regionStart
  induction f.list.listed with
  | nil => exact Nat.le_refl _
  | cons s ss ih => exact Nat.le_trans (Nat.min_le_right _ _) ih

theorem le_regionStart {f : FunctionNode} {n : Nat} (hbody : n ≤ f.body.span.start)
    (hlist : ∀ s ∈ f.list.listed, n ≤ s.start) : n ≤ f.regionStart := by
  unfold regionStart
  generalize f.list.listed = ss at hlist ⊢
  induction ss with
  | nil => exact hbody
  | cons s ss ih =>
    obtain ⟨hs, hss⟩ := List.forall_mem_cons.1 hlist
    exact Nat.le_min.2 ⟨hs, ih hss⟩

/-- `g` stands in the body of `f`, or in front of it where `f` keeps its list. -/
def Holds (f g : FunctionNode) : Prop :=
  g.region.Within f.body.span ∨ f.isModern = false ∧ g.region.stop ≤ f.body.span.start

/-- Two functions are side by side, or one holds the other. -/
def Disentangled (f g : FunctionNode) : Prop := f.region.Apart g.region ∨ f.Holds g ∨ g.Holds f

theorem Disentangled.symm {f g : FunctionNode} (h : f.Disentangled g) : g.Disentangled f := by
  rcases h with h | h | h
  · exact .inl h.symm
  · exact .inr (.inr h)
  · exact .inr (.inl h)

instance : Std.Symm Disentangled := ⟨fun _ _ h => h.symm⟩

theorem Disentangled.of_modern {f g : FunctionNode} (h : f.Disentangled g)
    (hf : f.isModern = true) (hg : g.isModern = true) : f.region.Apart g.region ∨
      f.region.Within g.body.span ∨ g.region.Within f.body.span := by
  simpa [Disentangled, Holds, hf, hg, or_comm] using h

/-- The list of a function to be lowered is apart from every other body that does not hold it
all. -/
theorem Disentangled.list_apart {f g : FunctionNode} (h : f.Disentangled g)
    (hf : f.isModern = true) (hfbody : f.body.span.start < f.body.span.stop) :
    f.listRange.Apart g.body.span ∨ f.region.Within g.body.span := by
  have hflist := f.regionStart_le_body
  have hglist := g.regionStart_le_body
  simp only [Disentangled, Holds, hf, region, listRange, Span.Apart, Span.Within] at h ⊢
  grind

theorem not_within_listRange {f g : FunctionNode} (hf : f.isModern = true)
    (hfbody : f.body.span.start < f.body.span.stop) (hgbody : g.body.span.start < g.body.span.stop)
    (h : f = g ∨ f.Disentangled g) : ¬ g.region.Within f.listRange := by
  have hflist := f.regionStart_le_body
  have hglist := g.regionStart_le_body
  rintro ⟨hstart, hstop⟩
  simp only [region, listRange] at hstart hstop
  rcases h with rfl | h
  · omega
  · rcases h.list_apart hf hfbody with (hle | hle) | ⟨hle, hle'⟩
    · simp only [listRange] at hle
      omega
    · simp only [listRange] at hle
      omega
    · simp only [region] at hle hle'
      omega

end FunctionNode

/-! ### Kept functions -/

/-- Functions kept in ranges; in a hidden place there are none. -/
structure NestedIn (hidden : Bool) (rs : List Span) (fs : List FunctionNode) : Prop where
  none : hidden = true → fs = []
  body : ∀ f ∈ fs, f.body.span.start < f.body.span.stop
  located : ∀ f ∈ fs, ∃ r ∈ rs, f.region.Within r
  apart : fs.Pairwise FunctionNode.Disentangled

namespace NestedIn

variable {hidden : Bool} {rs qs : List Span} {fs gs : List FunctionNode}

theorem nil : NestedIn hidden rs [] := ⟨fun _ => rfl, by simp, by simp, .nil⟩

theorem append (hf : NestedIn hidden rs fs) (hg : NestedIn hidden qs gs)
    (h : ∀ r ∈ rs, ∀ q ∈ qs, r.Apart q) : NestedIn hidden (rs ++ qs) (fs ++ gs) where
  none := fun hh => by rw [hf.none hh, hg.none hh]; rfl
  body := fun f hmem => (List.mem_append.1 hmem).elim (hf.body f) (hg.body f)
  located := by
    intro f hmem
    rcases List.mem_append.1 hmem with hmem | hmem
    · obtain ⟨r, hr, hwithin⟩ := hf.located f hmem
      exact ⟨r, List.mem_append_left _ hr, hwithin⟩
    · obtain ⟨q, hq, hwithin⟩ := hg.located f hmem
      exact ⟨q, List.mem_append_right _ hq, hwithin⟩
  apart := by
    refine List.pairwise_append.2 ⟨hf.apart, hg.apart, fun f hmem g hmem' => .inl ?_⟩
    obtain ⟨r, hr, hrstart, hrstop⟩ := hf.located f hmem
    obtain ⟨q, hq, hqstart, hqstop⟩ := hg.located g hmem'
    rcases h r hr q hq with hle | hle
    · exact .inl (by omega)
    · exact .inr (by omega)

theorem inside (h : NestedIn hidden rs fs) {r : Span} (hr : ∀ s ∈ rs, s.Within r) :
    NestedIn hidden [r] fs where
  none := h.none
  body := h.body
  located := by
    intro f hmem
    obtain ⟨s, hs, hsstart, hsstop⟩ := h.located f hmem
    obtain ⟨hrstart, hrstop⟩ := hr s hs
    exact ⟨r, by simp, by omega, by omega⟩
  apart := h.apart

end NestedIn

namespace Tree.FunctionNests

variable {r : Span} {params : List Target} {bodySpan : Span} {body : List Node} {ps bs : List Span}

theorem parts_within (h : FunctionNests r params bodySpan ps bs) : ∀ p ∈ ps ++ bs, p.Within r := by
  obtain ⟨hbodyStart, hbodyStop⟩ := h.within
  have hnonempty := h.nonempty
  intro p hp
  rcases List.mem_append.1 hp with hp | hp
  · obtain ⟨hstart, hstop⟩ := h.params.within p hp
    have hstop : p.stop ≤ bodySpan.start := hstop
    exact ⟨hstart, by omega⟩
  · obtain ⟨hstart, hstop⟩ := h.statements.within p hp
    exact ⟨by omega, by omega⟩

theorem param_apart (h : FunctionNests r params bodySpan ps bs) {p b : Span} (hp : p ∈ ps)
    (hb : b ∈ bs) : p.Apart b := by
  have hstop : p.stop ≤ bodySpan.start := (h.params.within p hp).2
  have hstart : bodySpan.start ≤ b.start := (h.statements.within b hb).1
  exact .inl (by omega)

/-- A function that was read stands in the range of its node. -/
theorem region_within (h : FunctionNests r params bodySpan ps bs) {f : FunctionNode}
    (hbody : f.body.span = bodySpan) (hlist : ParamList.ofTargets params = .ok f.list) :
    f.region.Within r := by
  have hwithin := h.within
  refine ⟨f.le_regionStart (by rw [hbody]; exact hwithin.1) fun s hs => ?_, ?_⟩
  · obtain ⟨t, ht, hst⟩ := ParamList.listed_of_ofTargets hlist hs
    exact (h.elements t ht s hst).1
  · change f.body.span.stop ≤ r.stop
    rw [hbody]
    exact hwithin.2

/-- What is kept at a function: perhaps itself, then those in its list, then those in its body. -/
theorem nestedIn (h : FunctionNests r params bodySpan ps bs) {file : Nat} {lineAt : Nat → Nat}
    {hidden : Bool} {name : Option String} {span : Span} {fs gs : List FunctionNode}
    (hfs : NestedIn (hides hidden (readFunction file lineAt name span params bodySpan body)) ps fs)
    (hgs : NestedIn hidden bs gs) : NestedIn hidden [r]
      (keep hidden (readFunction file lineAt name span params bodySpan body) ++ (fs ++ gs)) := by
  have hfs' : NestedIn hidden ps fs := { hfs with none := fun hh => hfs.none (by simp [hides, hh]) }
  have hinner : NestedIn hidden [r] (fs ++ gs) :=
    (hfs'.append hgs fun p hp b hb => h.param_apart hp hb).inside h.parts_within
  cases hread : readFunction file lineAt name span params bodySpan body with
  | error reason => exact hinner
  | ok f =>
    cases hidden with
    | true => exact hinner
    | false =>
      obtain ⟨list, hlist, hf⟩ := Surroundings.functionNode_eq_ok hread
      have hbody : f.body.span = bodySpan := by rw [hf]
      have hregion := h.region_within hbody (hf ▸ hlist)
      change NestedIn false [r] (f :: (fs ++ gs))
      refine ⟨by simp, ?_, ?_, ?_⟩
      · exact List.forall_mem_cons.2 ⟨hbody ▸ h.nonempty, hinner.body⟩
      · exact List.forall_mem_cons.2 ⟨⟨r, by simp, hregion⟩, hinner.located⟩
      · refine List.pairwise_cons.2 ⟨fun g hg => .inr (.inl ?_), hinner.apart⟩
        rcases List.mem_append.1 hg with hg | hg
        · -- nothing is kept in a list that is going to be lowered
          have hplain : f.isModern = false := by
            by_contra hmodern
            have hnone := hfs.none (by simpa [hread, hides] using hmodern)
            rw [hnone] at hg
            cases hg
          obtain ⟨p, hp, -, hstop⟩ := hfs.located g hg
          have hpstop : p.stop ≤ bodySpan.start := (h.params.within p hp).2
          exact .inr ⟨hplain, hbody ▸ Nat.le_trans hstop hpstop⟩
        · obtain ⟨b, hb, hstart, hstop⟩ := hgs.located g hg
          obtain ⟨hbstart, hbstop⟩ := h.statements.within b hb
          exact .inl (hbody ▸ ⟨Nat.le_trans hbstart hstart, Nat.le_trans hstop hbstop⟩)

end Tree.FunctionNests

section

variable (file : Nat) (lineAt : Nat → Nat)

mutual
theorem Tree.Node.kept_nestedIn : ∀ (n : Node) (r : Span) (hidden : Bool), n.Nested r →
    NestedIn hidden [r] (n.kept file lineAt hidden)
  | .name _, _, _, _ | .functionName _, _, _, _ | .className _, _, _, _ => .nil
  | .group _ parts, r, hidden, ⟨rs, hspread, hparts⟩ =>
    (Node.keptAll_nestedIn parts rs hidden hparts hspread.apart).inside hspread.within
  | .function _ _ params bodySpan body, r, hidden, ⟨ps, bs, hnests, hparams, hbody⟩ =>
    hnests.nestedIn (Target.keptAll_nestedIn params ps _ hparams hnests.params.apart)
      (Node.keptAll_nestedIn body bs hidden hbody hnests.statements.apart)
  | .closure _ params body, r, hidden, ⟨ps, bs, hspread, hparams, hbody⟩
  | .handler _ params body, r, hidden, ⟨ps, bs, hspread, hparams, hbody⟩ => by
    obtain ⟨hps, hbs, hapart⟩ := hspread.apart_of_append
    exact ((Target.keptAll_nestedIn params ps hidden hparams hps).append
      (Node.keptAll_nestedIn body bs hidden hbody hbs) hapart).inside hspread.within
  | .block _ body, r, hidden, ⟨rs, hspread, hbody⟩ =>
    (Node.keptAll_nestedIn body rs hidden hbody hspread.apart).inside hspread.within
  | .declaration _ _ targets, r, hidden, ⟨rs, hspread, htargets⟩ =>
    (Target.keptAll_nestedIn targets rs hidden htargets hspread.apart).inside hspread.within

theorem Tree.Node.keptAll_nestedIn : ∀ (ns : List Node) (rs : List Span) (hidden : Bool),
    Node.AllNested ns rs → rs.Pairwise Span.Apart →
    NestedIn hidden rs (Node.keptAll file lineAt hidden ns)
  | [], _, _, _, _ => .nil
  | n :: ns, _, hidden, ⟨r, rest, rfl, hn, hns⟩, hapart => by
    obtain ⟨hr, hrest⟩ := List.pairwise_cons.1 hapart
    exact (Node.kept_nestedIn n r hidden hn).append (Node.keptAll_nestedIn ns rest hidden hns hrest)
      (by simpa using hr)

theorem Tree.Target.kept_nestedIn : ∀ (t : Target) (r : Span) (hidden : Bool), t.Nested r →
    NestedIn hidden [r] (t.kept file lineAt hidden)
  | .name _ _ notes, r, hidden, ⟨rs, hspread, hnotes⟩ =>
    (Node.keptAll_nestedIn notes rs hidden hnotes hspread.apart).inside hspread.within
  | .object _ fields notes, r, hidden, ⟨fs, ns, hspread, hfields, hnotes⟩ => by
    obtain ⟨hfs, hns, hapart⟩ := hspread.apart_of_append
    exact ((Field.keptAll_nestedIn fields fs hidden hfields hfs).append
      (Node.keptAll_nestedIn notes ns hidden hnotes hns) hapart).inside hspread.within
  | .array _ slots notes, r, hidden, ⟨ss, ns, hspread, hslots, hnotes⟩ => by
    obtain ⟨hss, hns, hapart⟩ := hspread.apart_of_append
    exact ((Slot.keptAll_nestedIn slots ss hidden hslots hss).append
      (Node.keptAll_nestedIn notes ns hidden hnotes hns) hapart).inside hspread.within
  | .rest _ target notes, r, hidden, ⟨t, ns, hspread, htarget, hnotes⟩ => by
    obtain ⟨ht, hns⟩ := List.pairwise_cons.1 hspread.apart
    exact ((Target.kept_nestedIn target t hidden htarget).append
      (Node.keptAll_nestedIn notes ns hidden hnotes hns) (by simpa using ht)).inside hspread.within
  | .withDefault target value, r, hidden, ⟨t, v, hspread, htarget, hvalue⟩ => by
    obtain ⟨ht, -⟩ := List.pairwise_cons.1 hspread.apart
    exact ((Target.kept_nestedIn target t hidden htarget).append
      (Node.kept_nestedIn value v hidden hvalue) (by simpa using ht)).inside hspread.within
  | .undeclared target, r, hidden, h => Target.kept_nestedIn target r hidden h

theorem Tree.Target.keptAll_nestedIn : ∀ (ts : List Target) (rs : List Span) (hidden : Bool),
    Target.AllNested ts rs → rs.Pairwise Span.Apart →
    NestedIn hidden rs (Target.keptAll file lineAt hidden ts)
  | [], _, _, _, _ => .nil
  | t :: ts, _, hidden, ⟨r, rest, rfl, ht, hts⟩, hapart => by
    obtain ⟨hr, hrest⟩ := List.pairwise_cons.1 hapart
    exact (Target.kept_nestedIn t r hidden ht).append
      (Target.keptAll_nestedIn ts rest hidden hts hrest) (by simpa using hr)

theorem Tree.Field.kept_nestedIn : ∀ (f : Field) (r : Span) (hidden : Bool), f.Nested r →
    NestedIn hidden [r] (f.kept file lineAt hidden)
  | .keyed _ keyParts value, r, hidden, ⟨ks, v, hspread, hkey, hvalue⟩ => by
    obtain ⟨hks, -, hapart⟩ := hspread.apart_of_append
    exact ((Node.keptAll_nestedIn keyParts ks hidden hkey hks).append
      (Target.kept_nestedIn value v hidden hvalue) hapart).inside hspread.within
  | .shorthand _ none, _, _, _ => .nil
  | .shorthand _ (some value), r, hidden, h => Node.kept_nestedIn value r hidden h
  | .rest target, r, hidden, h => Target.kept_nestedIn target r hidden h

theorem Tree.Field.keptAll_nestedIn : ∀ (fs : List Field) (rs : List Span) (hidden : Bool),
    Field.AllNested fs rs → rs.Pairwise Span.Apart →
    NestedIn hidden rs (Field.keptAll file lineAt hidden fs)
  | [], _, _, _, _ => .nil
  | f :: fs, _, hidden, ⟨r, rest, rfl, hf, hfs⟩, hapart => by
    obtain ⟨hr, hrest⟩ := List.pairwise_cons.1 hapart
    exact (Field.kept_nestedIn f r hidden hf).append
      (Field.keptAll_nestedIn fs rest hidden hfs hrest) (by simpa using hr)

theorem Tree.Slot.keptAll_nestedIn : ∀ (ss : List Slot) (rs : List Span) (hidden : Bool),
    Slot.AllNested ss rs → rs.Pairwise Span.Apart →
    NestedIn hidden rs (Slot.keptAll file lineAt hidden ss)
  | [], _, _, _, _ => .nil
  | .hole :: ss, _, hidden, ⟨r, rest, rfl, hss⟩, hapart => by
    obtain ⟨hr, hrest⟩ := List.pairwise_cons.1 hapart
    have hnone : NestedIn hidden [r] [] := .nil
    exact hnone.append (Slot.keptAll_nestedIn ss rest hidden hss hrest) (by simpa using hr)
  | .item t :: ss, _, hidden, ⟨r, rest, rfl, ht, hss⟩, hapart => by
    obtain ⟨hr, hrest⟩ := List.pairwise_cons.1 hapart
    exact (Target.kept_nestedIn t r hidden ht).append
      (Slot.keptAll_nestedIn ss rest hidden hss hrest) (by simpa using hr)
end

end

/-! ### The result -/

/-- Of two functions to be lowered, from the list to the end of the body each, one is in the body
of the other, or they are side by side. No function at all is in a list that is going to be
lowered. -/
theorem Discovery.functions_nested {statements : List Node} (h : Tree.Nested statements)
    (file : Nat) (lineAt : Nat → Nat) (names : NameSet) :
    (Discovery.ofStatements file lineAt statements names).functions.Pairwise (fun f g =>
      f.isModern = true → g.isModern = true → f.region.Apart g.region ∨
        f.region.Within g.body.span ∨ g.region.Within f.body.span) ∧
    ∀ f ∈ (Discovery.ofStatements file lineAt statements names).functions, f.isModern = true →
      ∀ g ∈ (Discovery.ofStatements file lineAt statements names).functions,
        ¬ g.region.Within f.listRange := by
  obtain ⟨rs, hapart, hnested⟩ := h
  have hkept := Node.keptAll_nestedIn file lineAt statements rs false hnested hapart
  have hbody := Discovery.forall_functions names
    (P := fun f => f.body.span.start < f.body.span.stop) (fun _ _ hf => hf) hkept.body
  have hpairwise := Discovery.pairwise_functions names (fun _ _ hfg => hfg.symm)
    (fun _ _ _ _ hfg => hfg) hkept.apart
  refine ⟨hpairwise.imp fun hfg hf hg => hfg.of_modern hf hg, fun f hf hmodern => ?_⟩
  exact fun g hg => FunctionNode.not_within_listRange hmodern (hbody f hf) (hbody g hg)
    (or_iff_not_imp_left.2 (hpairwise.forall hf hg))

/-- `function f({a}, b = function ({c}) {}) { return function (...r) {} }` -/
def hiddenStatements : List Node :=
  [.group ⟨0, 68⟩ [.functionName ⟨"f", ⟨9, 10⟩⟩,
    .function (some "f") ⟨0, 68⟩
      [.object ⟨11, 14⟩ [.shorthand ⟨"a", ⟨12, 13⟩⟩ none] [],
        .withDefault (.name ⟨"b", ⟨16, 17⟩⟩ ⟨16, 17⟩ [])
          (.group ⟨20, 37⟩ [.function none ⟨20, 37⟩
            [.object ⟨30, 33⟩ [.shorthand ⟨"c", ⟨31, 32⟩⟩ none] []] ⟨35, 37⟩ []])]
      ⟨39, 68⟩
      [.group ⟨41, 66⟩ [.group ⟨48, 66⟩ [.function none ⟨48, 66⟩
        [.rest ⟨58, 62⟩ (.name ⟨"r", ⟨61, 62⟩⟩ ⟨61, 62⟩ []) []] ⟨64, 66⟩ []]]]]]

theorem hiddenStatements_nested : Tree.Nested hiddenStatements := by
  have hspread : ∀ r : Span, r.Spread [] := fun r => ⟨by simp, .nil⟩
  refine ⟨[⟨0, 68⟩], by decide, _, _, rfl, ⟨[⟨9, 10⟩, ⟨10, 68⟩], ⟨by decide, by decide⟩,
    _, _, rfl, trivial, _, _, rfl, ?outer, rfl⟩, rfl⟩
  refine ⟨[⟨11, 14⟩, ⟨16, 37⟩], [⟨41, 66⟩], ⟨by decide, ⟨by decide, by decide⟩, by decide,
    by decide, by decide, by decide⟩, ⟨_, _, rfl, ?object, _, _, rfl, ?default, rfl⟩,
    _, _, rfl, ?body, rfl⟩
  case object => exact ⟨[⟨12, 13⟩], [], ⟨by decide, by decide⟩, ⟨_, _, rfl, trivial, rfl⟩, rfl⟩
  case default =>
    refine ⟨⟨16, 17⟩, ⟨20, 37⟩, ⟨by decide, by decide⟩, ⟨[], hspread _, rfl⟩,
      [⟨20, 37⟩], ⟨by decide, by decide⟩, _, _, rfl, ?_, rfl⟩
    exact ⟨[⟨30, 33⟩], [], ⟨by decide, ⟨by decide, by decide⟩, by decide, by decide, hspread _⟩,
      ⟨_, _, rfl, ⟨[⟨31, 32⟩], [], ⟨by decide, by decide⟩, ⟨_, _, rfl, trivial, rfl⟩, rfl⟩, rfl⟩, rfl⟩
  case body =>
    refine ⟨[⟨48, 66⟩], ⟨by decide, by decide⟩, _, _, rfl, ⟨[⟨48, 66⟩], ⟨by decide, by decide⟩,
      _, _, rfl, ?_, rfl⟩, rfl⟩
    exact ⟨[⟨58, 62⟩], [], ⟨by decide, ⟨by decide, by decide⟩, by decide, by decide, hspread _⟩,
      ⟨_, _, rfl, ⟨⟨61, 62⟩, [], ⟨by decide, by decide⟩, ⟨[], hspread _, rfl⟩, rfl⟩, rfl⟩, rfl⟩

theorem Discovery.functions_nested_hidden :
    Tree.Nested hiddenStatements ∧
    (Discovery.ofStatements 0 (fun _ => 1) hiddenStatements {}).functions.Pairwise (fun f g =>
      f.isModern = true → g.isModern = true → f.region.Apart g.region ∨
        f.region.Within g.body.span ∨ g.region.Within f.body.span) ∧
    ∀ f ∈ (Discovery.ofStatements 0 (fun _ => 1) hiddenStatements {}).functions, f.isModern = true →
      ∀ g ∈ (Discovery.ofStatements 0 (fun _ => 1) hiddenStatements {}).functions,
        ¬ g.region.Within f.listRange :=
  ⟨hiddenStatements_nested, Discovery.functions_nested hiddenStatements_nested 0 (fun _ => 1) {}⟩

/-- The function in the list is left out, the one in the body is not. -/
example : (Discovery.ofStatements 0 (fun _ => 1) hiddenStatements {}).functions.map (·.region) =
    [⟨11, 68⟩, ⟨58, 66⟩] := by decide

end ParamLowering
