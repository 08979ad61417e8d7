import ParamLowering.Proofs.ReadList
set_option autoImplicit false

/-!
The functions found in a tree.

What is found in a part of the tree stands in the range of that part. A list that is going to be
lowered hides the functions inside it, so that of two functions to be lowered one is in the body
of the other, or they are side by side.
-/

namespace ParamLowering

open ParamLowering.Tree

/-- Functions found in ranges of a source. -/
structure FoundIn (source : List Char) (rs : List Span) (fs : List FunctionNode) : Prop where
  sound : ∀ f ∈ fs, ∃ start, f.Sound source start
  located : ∀ f ∈ fs, ∃ r ∈ rs, f.extent.Within r
  apart : fs.Pairwise fun f g => f.isModern = true → g.isModern = true → f.Apart g

namespace FoundIn

variable {source : List Char} {rs qs : List Span} {fs gs : List FunctionNode}

theorem nil : FoundIn source rs [] := ⟨by simp, by simp, List.Pairwise.nil⟩

theorem append (hf : FoundIn source rs fs) (hg : FoundIn source qs gs)
    (h : ∀ r ∈ rs, ∀ q ∈ qs, r.Apart q) : FoundIn source (rs ++ qs) (fs ++ gs) where
  sound := fun f hmem => (List.mem_append.1 hmem).elim (hf.sound f) (hg.sound f)
  located := by
    intro f hmem
    rcases List.mem_append.1 hmem with hmem | hmem
    · obtain ⟨r, hr, hwithin⟩ := hf.located f hmem
      exact ⟨r, List.mem_append_left _ hr, hwithin⟩
    · obtain ⟨q, hq, hwithin⟩ := hg.located f hmem
      exact ⟨q, List.mem_append_right _ hq, hwithin⟩
  apart := by
    refine List.pairwise_append.2 ⟨hf.apart, hg.apart, fun f hmem g hmem' _ _ => ?_⟩
    obtain ⟨r, hr, hrstart, hrstop⟩ := hf.located f hmem
    obtain ⟨q, hq, hqstart, hqstop⟩ := hg.located g hmem'
    rcases h r hr q hq with hle | hle
    · exact .inl (by omega)
    · exact .inr (.inl (by omega))

theorem widen (h : FoundIn source rs fs) (hrs : ∀ r ∈ rs, ∃ q ∈ qs, r.Within q) :
    FoundIn source qs fs where
  sound := h.sound
  located := by
    intro f hmem
    obtain ⟨r, hr, hrstart, hrstop⟩ := h.located f hmem
    obtain ⟨q, hq, hqstart, hqstop⟩ := hrs r hr
    exact ⟨q, hq, by omega, by omega⟩
  apart := h.apart

end FoundIn

/-- A step of the walk finds functions in ranges of the source, and none in a hidden place. -/
def Finds (source : List Char) (hidden : Bool) (rs : List Span) (st st' : Findings) : Prop :=
  ∃ fs, st'.functions = st.functions ++ fs ∧ FoundIn source rs fs ∧ (hidden = true → fs = [])

namespace Finds

variable {source : List Char} {hidden : Bool} {rs qs : List Span} {st st' st'' : Findings}

theorem of_eq (h : st'.functions = st.functions) : Finds source hidden rs st st' :=
  ⟨[], by simp [h], FoundIn.nil, fun _ => rfl⟩

theorem append (hr : Finds source hidden rs st st') (hq : Finds source hidden qs st' st'')
    (h : ∀ r ∈ rs, ∀ q ∈ qs, r.Apart q) : Finds source hidden (rs ++ qs) st st'' := by
  obtain ⟨fs, hfs, hfound, hnone⟩ := hr
  obtain ⟨gs, hgs, hfound', hnone'⟩ := hq
  refine ⟨fs ++ gs, by rw [hgs, hfs, List.append_assoc], hfound.append hfound' h, fun hh => ?_⟩
  rw [hnone hh, hnone' hh]
  rfl

theorem inside {r : Span} (h : Finds source hidden rs st st') (hr : r.Spread rs) :
    Finds source hidden [r] st st' := by
  obtain ⟨fs, hfs, hfound, hnone⟩ := h
  exact ⟨fs, hfs, hfound.widen fun s hs => ⟨r, by simp, hr.within s hs⟩, hnone⟩

theorem of_start (h : Finds source hidden rs st' st'') (heq : st'.functions = st.functions) :
    Finds source hidden rs st st'' := by
  obtain ⟨fs, hfs, hfound, hnone⟩ := h
  exact ⟨fs, by rw [hfs, heq], hfound, hnone⟩

end Finds

namespace Tree.FunctionLies

variable {source : List Char} {r : Span} {params : List Target} {bodySpan : Span}
  {body : List Node} {ps bs : List Span}

theorem param_apart (h : FunctionLies source r params bodySpan body ps bs) {p b : Span}
    (hp : p ∈ ps) (hb : b ∈ bs) : p.Apart b := by
  have hpstop : p.stop ≤ bodySpan.start := (h.beforeBody p hp).2
  have hbstart : bodyAnchor bodySpan body ≤ b.start := (h.statements.within b hb).1
  have hanchor := h.anchor.1
  exact .inl (by omega)

theorem parts_within (h : FunctionLies source r params bodySpan body ps bs) :
    ∀ p ∈ ps ++ bs, p.Within r := by
  have hbody := h.within
  have hanchor := h.anchor
  intro p hp
  rcases List.mem_append.1 hp with hp | hp
  · obtain ⟨hstart, hstop⟩ := h.beforeBody p hp
    have hstop : p.stop ≤ bodySpan.start := hstop
    exact ⟨hstart, by have := hbody.2; omega⟩
  · obtain ⟨hstart, hstop⟩ := h.statements.within p hp
    have hstart : bodyAnchor bodySpan body ≤ p.start := hstart
    have hstop : p.stop ≤ bodySpan.stop := hstop
    exact ⟨by have := hbody.1; omega, by have := hbody.2; omega⟩

/-- A function together with those in its body; if it is to be lowered, none is in its list. -/
theorem foundIn_cons (h : FunctionLies source r params bodySpan body ps bs)
    {f : FunctionNode} (hsound : f.Sound source r.start) (hbody : f.body.span = bodySpan)
    (hanchor : Layout.anchorOf f = bodyAnchor bodySpan body) {fs gs : List FunctionNode}
    (hfs : FoundIn source ps fs) (hgs : FoundIn source bs gs)
    (hhidden : f.isModern = true → fs = []) : FoundIn source [r] (f :: (fs ++ gs)) := by
  have hinner : FoundIn source [r] (fs ++ gs) :=
    (hfs.append hgs fun p hp b hb => h.param_apart hp hb).widen
      fun p hp => ⟨r, by simp, h.parts_within p hp⟩
  refine ⟨?_, ?_, ?_⟩
  · exact List.forall_mem_cons.2 ⟨⟨_, hsound⟩, hinner.sound⟩
  · refine List.forall_mem_cons.2 ⟨⟨r, by simp, hsound.start_le_listStart, ?_⟩, hinner.located⟩
    have hle : max f.body.span.stop (Layout.anchorOf f) = bodySpan.stop := by
      rw [hbody, hanchor]
      exact Nat.max_eq_left h.anchor.2
    change max f.body.span.stop (Layout.anchorOf f) ≤ r.stop
    rw [hle]
    exact h.within.2
  · refine List.pairwise_cons.2 ⟨fun g hg hmodern _ => ?_, hinner.apart⟩
    rw [hhidden hmodern, List.nil_append] at hg
    obtain ⟨b, hb, hstart, hstop⟩ := hgs.located g hg
    obtain ⟨hbstart, hbstop⟩ := h.statements.within b hb
    refine .inr (.inr (.inr ⟨?_, ?_⟩))
    · rw [hanchor]
      exact Nat.le_trans hbstart hstart
    · rw [hbody]
      exact Nat.le_trans hstop hbstop

/-- What is found at a function: perhaps itself, then those in its list, then those in its
body. -/
theorem finds (h : FunctionLies source r params bodySpan body ps bs)
    (hplaced : Target.AllPlaced source params ps) (env : Surroundings) (name : Option String)
    (span : Span) (scope : ScopeId) (st : Findings) {st₁ st₂ : Findings}
    (hparams : Finds source (env.inParameters ||
      env.isLowered (env.functionNode name span params bodySpan body)) ps
      (st.note env name span scope (env.functionNode name span params bodySpan body)) st₁)
    (hbody : Finds source env.inParameters bs st₁ st₂) :
    Finds source env.inParameters [r] st st₂ := by
  obtain ⟨fs, hfs, hfound, hnone⟩ := hparams
  obtain ⟨gs, hgs, hfound', hnone'⟩ := hbody
  have hinner : FoundIn source [r] (fs ++ gs) :=
    (hfound.append hfound' fun p hp b hb => h.param_apart hp hb).widen
      fun p hp => ⟨r, by simp, h.parts_within p hp⟩
  -- the function itself is not kept
  have hleft : (st.note env name span scope
      (env.functionNode name span params bodySpan body)).functions = st.functions →
      Finds source env.inParameters [r] st st₂ := fun hst =>
    ⟨fs ++ gs, by rw [hgs, hfs, hst, List.append_assoc], hinner, fun hhidden => by
      rw [hnone (by simp [hhidden]), hnone' hhidden]
      rfl⟩
  cases hread : env.functionNode name span params bodySpan body with
  | error reason => exact hleft (by rw [hread]; rfl)
  | ok f =>
    cases hhidden : env.inParameters with
    | true =>
      refine hhidden ▸ hleft ?_
      rw [hread, Findings.note]
      simp only [hhidden, Bool.not_true, Bool.false_eq_true, ↓reduceIte]
      split <;> rfl
    | false =>
      obtain ⟨hsound, hfbody, hfanchor⟩ := FunctionNode.Sound.of_functionNode h hplaced hread
      have hnote : (st.note env name span scope (.ok f)).functions = st.functions ++ [f] := by
        simp [Findings.note, hhidden, Findings.functions]
      rw [hread, hnote] at hfs
      refine ⟨f :: (fs ++ gs), by rw [hgs, hfs]; simp, ?_, by simp⟩
      refine h.foundIn_cons hsound hfbody hfanchor hfound hfound' fun hmodern => hnone ?_
      simp [hread, Surroundings.isLowered, hhidden, hmodern]

end Tree.FunctionLies

/-! ### The walk -/

section Walk

variable (source : List Char)

mutual
theorem Tree.Node.collect_finds : ∀ (n : Node) (r : Span), n.Placed source r →
    ∀ (env : Surroundings) (st : Findings),
    Finds source env.inParameters [r] st (n.collect env st)
  | .name _, _, _, _, _ => Finds.of_eq rfl
  | .functionName _, _, _, _, _ => Finds.of_eq rfl
  | .className _, _, _, _, _ => Finds.of_eq rfl
  | .group _ parts, r, ⟨rs, hspread, hparts⟩, env, st =>
    (Node.collectAll_finds parts rs hparts hspread.apart env st).inside hspread
  | .function name span params bodySpan body, r, ⟨ps, bs, hlies, hparams, hbody⟩, env, st => by
    have horder : ps.Pairwise Span.Apart := hlies.inOrder.imp fun h => .inl h
    have hlist := Target.collectAll_finds params ps hparams horder
      { env with
        scope := st.scopes.size
        inParameters := env.inParameters ||
          env.isLowered (env.functionNode name span params bodySpan body) }
    have hstatements := Node.collectAll_finds body bs hbody hlies.statements.apart
      { env with scope := st.scopes.size }
    exact (hlies.finds hparams env name span st.scopes.size (st.push .function env.scope)
      ((hlist _).of_start (Findings.functions_declareParams _ _ _ _ _)) (hstatements _)).of_start rfl
  | .closure _ params body, r, ⟨ps, bs, hspread, hparams, hbody⟩, env, st => by
    obtain ⟨hps, hbs, hapart⟩ := hspread.apart_of_append
    exact (((Target.collectParams_finds params ps hparams hps _ 0 _).append
      (Node.collectAll_finds body bs hbody hbs _ _) hapart).inside hspread).of_start rfl
  | .block _ body, r, ⟨rs, hspread, hbody⟩, env, st =>
    ((Node.collectAll_finds body rs hbody hspread.apart _ _).inside hspread).of_start rfl
  | .handler _ param body, r, ⟨ps, bs, hspread, hparams, hbody⟩, env, st => by
    obtain ⟨hps, hbs, hapart⟩ := hspread.apart_of_append
    exact (((Target.collectAll_finds param ps hparams hps _ _).append
      (Node.collectAll_finds body bs hbody hbs _ _) hapart).inside hspread).of_start (by simp)
  | .declaration _ kind targets, r, ⟨rs, hspread, htargets⟩, env, st =>
    ((Target.collectAll_finds targets rs htargets hspread.apart _ _).inside hspread).of_start
      (by simp)

theorem Tree.Node.collectAll_finds : ∀ (ns : List Node) (rs : List Span),
    Node.AllPlaced source ns rs → rs.Pairwise Span.Apart → ∀ (env : Surroundings) (st : Findings),
    Finds source env.inParameters rs st (Node.collectAll env ns st)
  | [], _, _, _, _, _ => Finds.of_eq rfl
  | n :: ns, _, ⟨r, rest, rfl, hn, hns⟩, hapart, env, st => by
    obtain ⟨hr, hrest⟩ := List.pairwise_cons.1 hapart
    exact (Node.collect_finds n r hn env st).append (Node.collectAll_finds ns rest hns hrest env _)
      (by simpa using hr)

theorem Tree.Target.collectParams_finds : ∀ (ts : List Target) (rs : List Span),
    Target.AllPlaced source ts rs → rs.Pairwise Span.Apart →
    ∀ (env : Surroundings) (index : Nat) (st : Findings),
    Finds source env.inParameters rs st (Target.collectParams env index ts st)
  | [], _, _, _, _, _, _ => Finds.of_eq rfl
  | t :: ts, _, ⟨r, rest, rfl, ht, hts⟩, hapart, env, index, st => by
    obtain ⟨hr, hrest⟩ := List.pairwise_cons.1 hapart
    exact ((Target.collect_finds t r ht env _).append
      (Target.collectParams_finds ts rest hts hrest env (index + 1) _)
      (by simpa using hr)).of_start (by simp)

theorem Tree.Target.collectAll_finds : ∀ (ts : List Target) (rs : List Span),
    Target.AllPlaced source ts rs → rs.Pairwise Span.Apart →
    ∀ (env : Surroundings) (st : Findings),
    Finds source env.inParameters rs st (Target.collectAll env ts st)
  | [], _, _, _, _, _ => Finds.of_eq rfl
  | t :: ts, _, ⟨r, rest, rfl, ht, hts⟩, hapart, env, st => by
    obtain ⟨hr, hrest⟩ := List.pairwise_cons.1 hapart
    exact (Target.collect_finds t r ht env st).append (Target.collectAll_finds ts rest hts hrest env _)
      (by simpa using hr)

theorem Tree.Target.collect_finds : ∀ (t : Target) (r : Span), t.Placed source r →
    ∀ (env : Surroundings) (st : Findings),
    Finds source env.inParameters [r] st (t.collect env st)
  | .name _ _ notes, r, ⟨rs, hspread, hnotes⟩, env, st =>
    ((Node.collectAll_finds notes rs hnotes hspread.apart env _).inside hspread).of_start rfl
  | .object _ fields notes, r, ⟨fs, ns, hspread, hfields, hnotes⟩, env, st => by
    obtain ⟨hfs, hns, hapart⟩ := hspread.apart_of_append
    exact ((Field.collectAll_finds fields fs hfields hfs env st).append
      (Node.collectAll_finds notes ns hnotes hns env _) hapart).inside hspread
  | .array _ slots notes, r, ⟨ss, ns, hspread, hslots, hnotes⟩, env, st => by
    obtain ⟨hss, hns, hapart⟩ := hspread.apart_of_append
    exact ((Slot.collectAll_finds slots ss hslots hss env st).append
      (Node.collectAll_finds notes ns hnotes hns env _) hapart).inside hspread
  | .rest _ target notes, r, ⟨t, ns, hspread, htarget, hnotes⟩, env, st => by
    obtain ⟨ht, hns⟩ := List.pairwise_cons.1 hspread.apart
    exact ((Target.collect_finds target t htarget env st).append
      (Node.collectAll_finds notes ns hnotes hns env _) (by simpa using ht)).inside hspread
  | .withDefault target value, r, ⟨_, t, v, hspread, htarget, hvalue⟩, env, st => by
    obtain ⟨ht, -⟩ := List.pairwise_cons.1 hspread.apart
    exact ((Target.collect_finds target t htarget env st).append
      (Node.collect_finds value v hvalue env _) (by simpa using ht)).inside hspread
  | .undeclared target, r, h, env, st => Target.collect_finds target r h env st

theorem Tree.Field.collectAll_finds : ∀ (fs : List Field) (rs : List Span),
    Field.AllPlaced source fs rs → rs.Pairwise Span.Apart → ∀ (env : Surroundings) (st : Findings),
    Finds source env.inParameters rs st (Field.collectAll env fs st)
  | [], _, _, _, _, _ => Finds.of_eq rfl
  | f :: fs, _, ⟨r, rest, rfl, hf, hfs⟩, hapart, env, st => by
    obtain ⟨hr, hrest⟩ := List.pairwise_cons.1 hapart
    exact (Field.collect_finds f r hf env st).append (Field.collectAll_finds fs rest hfs hrest env _)
      (by simpa using hr)

theorem Tree.Field.collect_finds : ∀ (f : Field) (r : Span), f.Placed source r →
    ∀ (env : Surroundings) (st : Findings),
    Finds source env.inParameters [r] st (f.collect env st)
  | .keyed _ keyParts value, r, ⟨_, ks, v, hspread, hkey, hvalue⟩, env, st => by
    obtain ⟨hks, -, hapart⟩ := hspread.apart_of_append
    exact ((Node.collectAll_finds keyParts ks hkey hks env st).append
      (Target.collect_finds value v hvalue env _) hapart).inside hspread
  | .shorthand _ none, _, _, _, _ => Finds.of_eq rfl
  | .shorthand _ (some value), r, ⟨_, hvalue⟩, env, st =>
    (Node.collect_finds value r hvalue env _).of_start rfl
  | .rest target, r, h, env, st => Target.collect_finds target r h env st

theorem Tree.Slot.collectAll_finds : ∀ (ss : List Slot) (rs : List Span),
    Slot.AllPlaced source ss rs → rs.Pairwise Span.Apart → ∀ (env : Surroundings) (st : Findings),
    Finds source env.inParameters rs st (Slot.collectAll env ss st)
  | [], _, _, _, _, _ => Finds.of_eq rfl
  | .hole :: ss, _, ⟨r, rest, rfl, hss⟩, hapart, env, st => by
    obtain ⟨hr, hrest⟩ := List.pairwise_cons.1 hapart
    have hnone : Finds source env.inParameters [r] st st := Finds.of_eq rfl
    exact hnone.append (Slot.collectAll_finds ss rest hss hrest env st) (by simpa using hr)
  | .item t :: ss, _, ⟨r, rest, rfl, ht, hss⟩, hapart, env, st => by
    obtain ⟨hr, hrest⟩ := List.pairwise_cons.1 hapart
    exact (Target.collect_finds t r ht env st).append (Slot.collectAll_finds ss rest hss hrest env _)
      (by simpa using hr)
end

end Walk

/-! ### The result -/

namespace Discovery

variable {file : Nat}

/-- A function that has a scope keeps one. -/
theorem number_keeps_scope {next : Nat} {found : List (FunctionNode × ScopeId)}
    {scopes : ScopeRegistry} {id : FunctionId} (h : ∃ scope, scopes.scopeOf? id = some scope) :
    ∃ scope, (number file next found scopes).2.scopeOf? id = some scope := by
  induction found generalizing next scopes with
  | nil => exact h
  | cons p more ih =>
    refine ih ?_
    simp only [ScopeRegistry.scopeOf?, ScopeRegistry.associate, List.lookup_cons]
    split
    · exact ⟨_, rfl⟩
    · exact h

/-- Every numbered function has a scope. -/
theorem number_scope {next : Nat} {found : List (FunctionNode × ScopeId)} {scopes : ScopeRegistry}
    {g : FunctionNode} (h : g ∈ (number file next found scopes).1) :
    ∃ scope, (number file next found scopes).2.scopeOf? g.id = some scope := by
  induction found generalizing next scopes with
  | nil => simp [number] at h
  | cons p more ih =>
    rcases List.mem_cons.1 h with rfl | h
    · have hself : (scopes.associate ⟨file, next⟩ p.2).scopeOf? ⟨file, next⟩ = some p.2 :=
        List.lookup_cons_self
      change ∃ scope, (number file (next + 1) more (scopes.associate ⟨file, next⟩ p.2)).2.scopeOf?
        ⟨file, next⟩ = some scope
      exact number_keeps_scope ⟨p.2, hself⟩
    · exact ih h

end Discovery

theorem FunctionNode.Apart.symm {f g : FunctionNode} (h : f.Apart g) : g.Apart f := by
  rcases h with h | h | h | h
  · exact .inr (.inl h)
  · exact .inl h
  · exact .inr (.inr (.inr h))
  · exact .inr (.inr (.inl h))

theorem FunctionNode.Sound.renumber {f : FunctionNode} {source : List Char} {start : Nat}
    (h : f.Sound source start) (id : FunctionId) :
    ({ f with id } : FunctionNode).Sound source start :=
  ⟨h.list, h.start_le, h.brace, h.anchor, h.boundary⟩

/-- The functions of a file are read soundly, have scopes, and where they are lowered they do not
interfere. -/
structure Discovery.Sound (source : List Char) (d : Discovery) : Prop where
  functions : ∀ f ∈ d.functions, ∃ start, f.Sound source start
  scopes : ∀ f ∈ d.functions, ∃ scope, d.scopes.scopeOf? f.id = some scope
  apart : d.functions.Pairwise fun f g => f.isModern = true → g.isModern = true → f.Apart g

theorem Discovery.sound_ofStatements {source : List Char} {statements : List Node}
    (h : Tree.Placed source statements) (file : Nat) (lineAt : Nat → Nat) (names : NameSet) :
    (Discovery.ofStatements file lineAt statements names).Sound source := by
  obtain ⟨rs, hapart, hplaced⟩ := h
  obtain ⟨fs, hfs, hfound, -⟩ := Node.collectAll_finds source statements rs hplaced hapart
    ⟨file, lineAt, ScopeRegistry.moduleScope, false⟩ ⟨ScopeRegistry.initial, names, [], []⟩
  have hfunctions := (Sorting.sort_perm (fun a b : FunctionNode × ScopeId =>
    decide (a.1.span.start ≤ b.1.span.start)) (Node.collectAll
      ⟨file, lineAt, ScopeRegistry.moduleScope, false⟩ statements
      ⟨ScopeRegistry.initial, names, [], []⟩).found).map (·.1)
  change List.Perm _ (Findings.functions _) at hfunctions
  rw [show Findings.functions _ = fs from hfs] at hfunctions
  refine ⟨fun f hf => ?_, fun f hf => Discovery.number_scope hf, Discovery.number_pairwise ?_ ?_⟩
  · obtain ⟨p, hp, id, rfl⟩ := Discovery.mem_number hf
    obtain ⟨start, hsound⟩ := hfound.sound p.1 (hfunctions.mem_iff.1 (List.mem_map_of_mem hp))
    exact ⟨start, hsound.renumber id⟩
  · exact fun f g i j hfg hf hg => hfg hf hg
  · exact (hfunctions.pairwise_iff fun hfg hg hf => (hfg hf hg).symm).2 hfound.apart

end ParamLowering
