import ParamLowering.Grammar.Expression
import ParamLowering.Proofs.Reading.Function
set_option autoImplicit false

/-!
Expressions stand where they were read, and begin with the first token that was read.

Operands with operators and tails begin where their first operand does; with operators in front,
where the first of these does.
-/

namespace ParamLowering.Grammar

open ParamLowering.Tree Parse

variable {text : List Char} {lo lo' mid hi at_ : Nat} {g : Rules} {m : Mode} {c : Cursor}

/-! ### Literals and calls -/

theorem valueFrom_reads {parts : List Node} (h : Node.Begun text at_ lo parts) :
    Reads text lo (valueFrom at_ parts) fun hi o => o.node.Solid text at_ hi :=
  (spanFrom_reads at_).bind fun _ _ hspan => .pure (h.group hspan)

theorem literalFrom_reads {parts : List (List Node × Bool)} (hbegan : Began text at_ lo')
    (h : InOrder (fun lo hi p => Node.StandAll text lo hi p.1) lo' lo parts) :
    Reads text lo (literalFrom at_ parts) fun hi o => o.node.Solid text at_ hi :=
  (spanFrom_reads at_).bind fun _ _ hspan => .pure
    (Node.Begun.group (.behind hbegan (.flatMap h)) hspan)

theorem setterParams_inOrder {ts : List Target} (h : InOrder (Target.Stands text) lo hi ts) :
    InOrder (Target.Stands text) lo hi (setterParams ts) := by
  unfold setterParams
  split
  · cases h with
    | cons ha has =>
      cases has with
      | cons ht hts =>
        exact .cons (ht.mono ha.le (Nat.le_refl _)) (.nil (hts.le fun h => h.le))
  · exact h

section

variable (hg : g.Reads text)

include hg

theorem spread_reads : Reads text lo (spread g m) fun hi o => o.node.Stands text lo hi :=
  (mark?_passes "...").bind fun _ => hg.assignment

theorem arguments_reads : Reads text lo (arguments g m) (Node.StandAll text lo) :=
  (mark_passes "(").bind fun _ => (items_reads (fun _ => spread_reads hg) ")" g.bound).bind
    fun _ _ hos => .pure (.of_inOrder (hos.map id))

theorem arrayLiteral_begins (hc : c.In text) :
    Begins text c (arrayLiteral g m) fun hi o => o.node.Solid text c.start hi := by
  refine begins_start ((mark_begins hc (by decide)).bind fun _ _ hbegan =>
    (items_reads (Q := fun lo hi p => Node.StandAll text lo hi p.1) (fun _ => ?_) "]" g.bound).bind
      fun _ _ hparts => literalFrom_reads hbegan hparts)
  exact (atMark_peeks ",").bind fun _ => .ite (fun _ => .pure .nil) fun _ =>
    (spread_reads hg).bind fun _ _ ho => .pure (.single ho)

theorem keyedProperty_reads (at_ : Nat) {k : Key} (hk : k.Stands text lo' lo) :
    Reads text lo (keyedProperty g m at_ k) fun hi p => Node.StandAll text lo' hi p.1 := by
  refine atSignature_peeks.bind fun _ => .ite (fun _ => ?_) fun _ =>
    (mark?_passes ":").bind fun _ => .ite (fun _ => ?_) fun _ => ?_
  · exact (signature_reads hg).bind fun _ _ hc => (spanFrom_peeks at_).bind fun _ =>
      .pure (hk.parts.append (hc.asFunction _ _))
  · exact hg.assignment.bind fun _ _ hvalue => .pure (hk.parts.append (.single hvalue))
  · split
    · refine (mark?_passes "=").bind fun _ => .ite (fun _ => ?_) fun _ =>
        .pure (.name hk.parts)
      exact hg.assignment.bind fun _ _ hvalue => .pure (.name (hk.parts.append (.single hvalue)))
    · exact .failure

theorem property_reads :
    Reads text lo (property g m) fun hi p => Node.StandAll text lo hi p.1 := by
  refine (mark?_passes "...").bind fun _ => .ite
    (fun _ => hg.assignment.bind fun _ _ ho => .pure (.single ho)) fun _ =>
      start_peeks.bind fun at_ => memberForm_passes.bind fun form => ?_
  cases form with
  | plain =>
    refine (key_reads hg).bind fun _ k hk => ?_
    split
    · exact .failure
    · exact keyedProperty_reads hg at_ hk
  | method async generator =>
    exact (key_reads hg).bind fun _ k hk => (signature_reads hg).bind fun _ _ hc =>
      (spanFrom_peeks at_).bind fun _ => .pure (hk.parts.append (hc.asFunction _ _))
  | getter =>
    refine (key_reads hg).bind fun _ k hk => (signature_reads hg).bind fun _ _ hc =>
      (spanFrom_peeks at_).bind fun span => .pure (hk.parts.append (.single ?_))
    exact (hc.map (f := fun _ => []) fun h => .nil (h.le fun ht => ht.stands.le)).asClosure span
  | setter =>
    refine (key_reads hg).bind fun _ k hk => (signature_reads hg).bind fun _ _ hc =>
      (spanFrom_peeks at_).bind fun span => .pure (hk.parts.append (.single ?_))
    exact (hc.map fun h => setterParams_inOrder (h.mono fun ht => ht.stands)).asClosure span

theorem objectLiteral_begins (hc : c.In text) :
    Begins text c (objectLiteral g m) fun hi o => o.node.Solid text c.start hi :=
  begins_start ((mark_begins hc (by decide)).bind fun _ _ hbegan =>
    (items_reads (fun _ => property_reads hg) closeBrace g.bound).bind fun _ _ hparts =>
      literalFrom_reads hbegan hparts)

theorem parenthesized_begins (hc : c.In text) :
    Begins text c (parenthesized g m) fun hi o => o.node.Solid text c.start hi :=
  begins_start ((mark_begins hc (by decide)).bind fun _ _ hbegan => hg.expression.bind fun _ _ hn =>
    (mark_passes ")").bind fun _ => (spanFrom_reads c.start).bind fun _ _ hspan =>
      .pure (Node.Begun.group (.behind hbegan (.single hn)) hspan))

/-! ### Operands -/

theorem creation_begins (hc : c.In text) :
    Begins text c (creation g m) fun hi o => o.node.Solid text c.start hi := by
  refine begins_start ((word_begins hc "new").bind fun lo _ hbegan => (mark?_passes ".").bind
    fun _ => .ite (fun _ => (word_passes "target").bind fun _ => valueFrom_reads (.behind hbegan .nil))
      fun _ => hg.operand.bind fun mid callee hcallee => (atMark_peeks "?.").bind fun _ =>
        (require_peeks _).bind fun _ => atAngle_peeks.bind fun _ => ?_)
  refine .made (S := Node.StandAll text mid) (.attempt (typeArguments_reads hg) .nil) .nil
    fun _ types htypes => (atMark_peeks "(").bind fun _ =>
      .branch (arguments_reads hg) (.pure .nil) fun _ given hgiven => valueFrom_reads ?_
  exact .behind hbegan (.cons hcallee (htypes.prepend hgiven))

theorem importExpression_begins (hc : c.In text) :
    Begins text c (importExpression g m) fun hi o => o.node.Solid text c.start hi := by
  have hcall : ∀ {lo}, Began text c.start lo → Reads text lo
      (do valueFrom c.start (← arguments g m)) fun hi o => o.node.Solid text c.start hi :=
    fun hbegan => (arguments_reads hg).bind fun _ _ hgiven =>
      valueFrom_reads (.behind hbegan hgiven)
  refine begins_start ((word_begins hc "import").bind fun _ _ hbegan => (mark?_passes ".").bind
    fun _ => .ite (fun _ => ?_) fun _ => hcall hbegan)
  exact (word?_passes "meta").bind fun _ => .ite
    (fun _ => valueFrom_reads (.behind hbegan .nil)) fun _ =>
      (word?_passes "defer").bind fun _ => .optional (word_passes "source") (hcall hbegan)

omit hg in
theorem nameOperand_solid {id : Ident}
    (h : Began text at_ hi ∧ id.span = ⟨at_, hi⟩ ∧ Text.isBoundary text hi = true) :
    (Node.name id).Solid text at_ hi :=
  .of_span (Node.stands_name id (Nat.le_of_lt h.1.lt)) h.2.1 h.1 h.2.2

omit hg in
theorem identOperand_begins (hc : c.In text) :
    Begins text c (do return ⟨.name (← ident), .reference⟩)
      fun hi (o : Operand) => o.node.Solid text c.start hi :=
  (ident_begins hc).bind fun _ _ hid => .pure (nameOperand_solid hid)

omit hg in
/-- An operand of one token. -/
theorem token_begins (hc : c.In text) (ht : c.token.Opens) :
    Begins text c (do skip; valueFrom c.start []) fun hi o => o.node.Solid text c.start hi :=
  (skip_begins hc ht).bind fun _ _ hbegan => valueFrom_reads (.behind hbegan .nil)

theorem wordOperand_begins (hc : c.In text) (ht : c.token.Opens) (name : String) :
    Begins text c (wordOperand g m name) fun hi o => o.node.Solid text c.start hi := by
  refine begins_start (.ite (fun _ => token_begins hc ht) fun _ => .ite (fun _ => ?_)
    fun _ => atFunction_peeks.bind fun _ => .ite (fun _ => ?_) fun _ => .ite (fun _ => ?_)
      fun _ => .ite (fun _ => creation_begins hg hc) fun _ => .ite
        (fun _ => importExpression_begins hg hc) fun _ => identOperand_begins hc)
  · exact (skip_begins hc ht).bind fun _ _ hbegan => token_peeks.bind fun _ =>
      (require_peeks _).bind fun _ => valueFrom_reads (.behind hbegan .nil)
  · exact (functionExpression_begins hc fun _ => complete_reads hg).bind fun _ _ hn => .pure hn
  · exact (classExpression_begins hg hc).bind fun _ _ hn => .pure hn

theorem markupOperand_begins (hc : c.In text) (htoken : c.token = .mark "<") : Begins text c (do
      require m.dialect.markup
      match g.element m (← get).place with
      | some (node, last) =>
        resume last
        return ⟨node, .value⟩
      | none => failure) fun hi (o : Operand) => o.node.Solid text c.start hi := by
  refine (require_peeks _).bind fun _ => begins_get ?_
  split
  · rename_i node last helement
    obtain ⟨hn, hspan, hlt, hlast⟩ := hg.element hc.place_in helement
    have hlexes := hc.lexes
    rw [htoken] at hlexes
    have hrest := (hlexes.mark "<" rfl).1
    have hopens : OpensAt text c.place.offset :=
      ⟨_, hc.place_in.from?_eq, hrest ▸ opening_of_mark "<" (by decide) (by decide) _⟩
    have hbegan := hc.began (by simp [htoken, Token.Opens, Token.IsText])
    refine (resume_runs hlast (Nat.le_trans hc.start_le_place (Nat.le_of_lt hlt))).bind
      fun _ _ heq => .pure ?_
    subst heq
    exact {
      stands := hn.mono hc.start_le_place (Nat.le_refl _)
      opens := hbegan.opens
      start := hspan ▸ hc.start_le_place
      solid := hspan ▸ Span.solid_of_began ⟨hlt, hopens⟩ hlast.isBoundary
      stop := Nat.le_of_eq (congrArg Span.stop hspan) }
  · exact .failure

theorem primary_begins (hc : c.In text) :
    Begins text c (primary g m) fun hi o => o.node.Solid text c.start hi := by
  have hregex : c.token.Opens → Begins text c (do regex; valueFrom c.start [])
      fun hi o => o.node.Solid text c.start hi := fun ht =>
    (regex_begins hc ht).bind fun _ _ hbegan => valueFrom_reads (.behind hbegan .nil)
  refine begins_start (begins_token ?_)
  split
  · rename_i htoken
    exact wordOperand_begins hg hc (by simp [htoken, Token.Opens, Token.IsText]) _
  · exact identOperand_begins hc
  · rename_i htoken
    exact token_begins hc (by simp [htoken, Token.Opens, Token.IsText])
  · rename_i htoken
    exact token_begins hc (by simp [htoken, Token.Opens, Token.IsText])
  · rename_i htoken
    exact token_begins hc (by simp [htoken, Token.Opens, Token.IsText])
  · exact (template_begins (fun _ => hg.expression) false hc (Nat.le_refl _)).bind
      fun _ _ ⟨hbegan, hparts⟩ => valueFrom_reads (.behind hbegan (.of_inOrder hparts))
  · exact parenthesized_begins hg hc
  · exact arrayLiteral_begins hg hc
  · exact objectLiteral_begins hg hc
  · rename_i htoken
    exact hregex (by simp [htoken, Token.Opens, Token.IsText])
  · rename_i htoken
    exact hregex (by simp [htoken, Token.Opens, Token.IsText])
  · exact markupOperand_begins hg hc ‹_›
  · exact .failure

omit hg in
theorem memberName_passes : Passes text memberName := by
  refine token_peeks.passes.seq fun t => ?_
  split
  · exact skip_passes
  · exact skip_passes
  · exact .failure

theorem indexTail_reads :
    Reads text lo (indexTail g m) fun hi t => Node.StandAll text lo hi t.1 :=
  (mark_passes "[").bind fun _ => hg.expression.bind fun _ _ hindex => (mark_passes "]").bind
    fun _ => .pure (.single hindex)

theorem optionalTail_reads :
    Reads text lo (optionalTail g m) fun hi t => Node.StandAll text lo hi t.1 := by
  refine (atMark_peeks "(").bind fun _ => .ite
    (fun _ => (arguments_reads hg).bind fun _ _ hgiven => .pure hgiven) fun _ =>
      (atMark_peeks "[").bind fun _ => .ite (fun _ => indexTail_reads hg) fun _ =>
        atAngle_peeks.bind fun _ => .ite (fun _ => ?_) fun _ =>
          memberName_passes.bind fun _ => .pure .nil
  exact (typeArguments_reads hg).bind fun _ _ htypes => (arguments_reads hg).bind fun _ _ hgiven =>
    .pure (htypes.prepend hgiven)

theorem typedTail_reads :
    Reads text lo (typedTail g m) fun hi t => Node.StandAll text lo hi t.1 := by
  refine (typeArguments_reads hg).bind fun _ types htypes => (atMark_peeks "(").bind fun _ => .ite
    (fun _ => (arguments_reads hg).bind fun _ _ hgiven => .pure (htypes.prepend hgiven)) fun _ =>
      token_peeks.bind fun _ => .ite (fun _ => ?_) fun _ => onNewLine_peeks.bind fun _ =>
        token_peeks.bind fun _ => (require_peeks _).bind fun _ => .pure htypes
  exact (template_reads (fun _ => hg.expression) true).bind fun _ _ hparts =>
    .pure (htypes.append (.of_inOrder hparts))

theorem tail?_reads (calls : Bool) :
    Reads text lo (tail? g m calls) fun hi o => ∀ t ∈ o, Node.StandAll text lo hi t.1 := by
  have hnothing : Reads text lo (Pure.pure (some ([], .reference)))
      fun hi (o : Option Tail) => ∀ t ∈ o, Node.StandAll text lo hi t.1 := .pure (by simp [Node.StandAll.nil])
  refine token_peeks.bind fun t => ?_
  split
  · exact skip_passes.bind fun _ => memberName_passes.bind fun _ => hnothing
  · exact .ite (fun _ => skip_passes.bind fun _ => (optionalTail_reads hg).present)
      fun _ => .absent
  · exact (indexTail_reads hg).present
  · exact .ite (fun _ => (arguments_reads hg).bind fun _ _ hgiven => .pure (by simpa using hgiven))
      fun _ => .absent
  · exact (template_reads (fun _ => hg.expression) true).bind fun _ parts hparts =>
      .pure (by simpa using Node.StandAll.of_inOrder hparts)
  · exact onNewLine_peeks.bind fun _ =>
      .ite (fun _ => skip_passes.bind fun _ => hnothing) fun _ => .absent
  · exact .ite (fun _ => .attempt ((typedTail_reads hg).mono (by simp)) (by simp)) fun _ => .absent
  · exact .ite (fun _ => .attempt ((typedTail_reads hg).mono (by simp)) (by simp)) fun _ => .absent
  · exact .absent

theorem operand_begins (hc : c.In text) (calls : Bool) :
    Begins text c (operand g m calls) fun hi o => o.node.Solid text c.start hi := by
  refine begins_start ((primary_begins hg hc).bind fun _ first hfirst =>
    (repeated_reads (fun _ => tail?_reads hg calls) g.bound).bind fun _ tails htails => ?_)
  split
  · exact .pure (hfirst.mono (htails.le fun h => h.le))
  · exact (spanFrom_reads c.start).bind fun _ _ hspan =>
      .pure (Node.Begun.group (.cons hfirst (.flatMap htails)) hspan)

/-! ### Operators -/

theorem counted_begins (hc : c.In text) :
    Begins text c (counted g m) fun hi o => o.node.Solid text c.start hi :=
  begins_start ((hg.operandAt hc).bind fun _ _ ho => token_peeks.bind fun _ =>
    onNewLine_peeks.bind fun _ => .ite
      (fun _ => skip_passes.bind fun _ => valueFrom_reads (.cons ho .nil)) fun _ => .pure ho)

omit hg in
theorem awaitIsName_peeks : Peeks (awaitIsName m) := .ite (.pure _) (nextIs_peeks _)

theorem prefixOperator?_offers (hc : c.In text) : Offers text c (prefixOperator? g m)
    fun hi p => c.token.Opens ∧ Node.StandAll text c.start hi p.1 := by
  have hword : c.token.Opens → Offers text c (do skip; return some ([], false))
      fun hi (p : List Node × Bool) => c.token.Opens ∧ Node.StandAll text c.start hi p.1 := fun ht =>
    .of_runs ((skip_begins hc ht).bind fun _ _ hbegan => .pure ⟨_, rfl, ht,
      .mono .nil (Nat.le_refl _) (Nat.le_of_lt hbegan.lt)⟩)
  refine .token ?_
  split
  · rename_i sign htoken
    have ht : sign ≠ "," → c.token.Opens := fun hsign =>
      Token.opens_of_isMark (by simp [htoken, Token.isMark]) hsign
    refine .ite (fun hsign => hword (ht ?_)) fun _ => .ite (fun hsign => ?_) fun _ => .nothing
    · rintro rfl
      exact absurd hsign (by decide)
    · obtain rfl : sign = "<" := eq_of_beq (Bool.and_eq_true_iff.1 hsign).1
      exact .of_runs ((openAngle_begins hc).bind fun _ _ hlt => (word?_passes "const").bind
        fun _ => .branch (.pure .nil) hg.type fun _ _ hnames => closeAngle_passes.bind fun _ =>
          .pure ⟨_, rfl, ht (by decide), hnames.mono (Nat.le_of_lt hlt) (Nat.le_refl _)⟩)
  · rename_i htoken
    have ht : c.token.Opens := by simp [htoken, Token.Opens, Token.IsText]
    exact .ite (fun _ => hword ht) fun _ => awaitIsName_peeks.offer fun _ =>
      .ite (fun _ => hword ht) fun _ => .nothing
  · exact .nothing

theorem unaryOperand_begins (hc : c.In text) :
    Begins text c (unaryOperand g m) fun hi o => o.node.Solid text c.start hi := by
  refine begins_token ?_
  split
  · rename_i htoken
    exact begins_start ((skip_begins hc (by simp [htoken, Token.Opens, Token.IsText])).bind
      fun _ _ hbegan => (atWord_peeks "in").bind fun _ => (require_peeks _).bind fun _ =>
        valueFrom_reads (.behind hbegan .nil))
  · exact (anyName_begins hc).bind fun _ _ hid => .pure (nameOperand_solid hid)
  · exact counted_begins hg hc

theorem unary_begins (hc : c.In text) :
    Begins text c (unary g m) fun hi o => o.node.Solid text c.start hi := by
  refine begins_start (Offers.repeated_bind (F := fun c => c.token.Opens)
    (Q := fun lo hi p => Node.StandAll text lo hi p.1) (fun _ hc => prefixOperator?_offers hg hc)
    ?_ hc ?_ (fun d operators hd hne ht hin => ?_) g.bound)
  · exact fun hle h => h.mono hle (Nat.le_refl _)
  · exact (unaryOperand_begins hg hc).bind fun _ _ ho => .pure ho
  · refine (unaryOperand_begins hg hd).bind fun _ o ho => .ite (fun hempty => ?_) fun _ =>
      (spanFrom_reads c.start).bind fun _ _ hspan => .pure (Node.Begun.group ⟨?_, ?_⟩ hspan)
    · exact absurd (List.isEmpty_iff.1 hempty) hne
    · exact ⟨Nat.lt_of_le_of_lt (hin.le fun h => h.le) ho.began.lt, (hc.began ht).opens⟩
    · exact (Node.StandAll.flatMap hin).prepend (.single ho.stands)

theorem unary_reads : Reads text lo (unary g m) fun hi o => o.node.Stands text lo hi :=
  .of_begins fun _ hc hle => (unary_begins hg hc).mono fun _ _ ho =>
    ho.stands.mono hle (Nat.le_refl _)

theorem assertedType_reads : Reads text lo (assertedType g m) (Node.StandAll text lo) :=
  (word?_passes "const").bind fun _ => .ite (fun _ => .pure .nil) fun _ => hg.type

theorem binaryStep?_reads :
    Reads text lo (binaryStep? g m) fun hi o => ∀ p ∈ o, Node.StandAll text lo hi p.1 := by
  have hstep : Reads text lo (do skip; return some ([(← unary g m).node], false))
      fun hi (o : Option (List Node × Bool)) => ∀ p ∈ o, Node.StandAll text lo hi p.1 :=
    skip_passes.bind fun _ => (unary_reads hg).bind fun _ o ho =>
      .pure (by simpa using Node.StandAll.single ho)
  refine token_peeks.bind fun t => ?_
  split
  · exact .ite (fun _ => hstep) fun _ => .absent
  · refine .ite (fun _ => hstep) fun _ => onNewLine_peeks.bind fun _ =>
      .ite (fun _ => ?_) fun _ => .absent
    exact skip_passes.bind fun _ => (assertedType_reads hg).bind fun _ _ hnames =>
      .pure (by simpa using hnames)
  · exact .absent

theorem binary_begins (hc : c.In text) :
    Begins text c (binary g m) fun hi o => o.node.Solid text c.start hi :=
  begins_start ((unary_begins hg hc).bind fun _ _ hfirst =>
    (repeated_reads (fun _ => binaryStep?_reads hg) g.bound).bind fun _ _ hsteps =>
      .ite (fun _ => .pure (hfirst.mono (hsteps.le fun h => h.le))) fun _ =>
        (spanFrom_reads c.start).bind fun _ _ hspan =>
          .pure (Node.Begun.group (.cons hfirst (.flatMap hsteps)) hspan))

theorem conditional_begins (hc : c.In text) :
    Begins text c (conditional g m) fun hi o => o.node.Solid text c.start hi := by
  refine begins_start ((binary_begins hg hc).bind fun _ _ htest =>
    (mark?_passes "?").bind fun _ => .ite (fun _ => ?_) fun _ => .pure htest)
  exact hg.assignment.bind fun _ _ htrue => (mark_passes ":").bind fun _ => hg.assignment.bind
    fun _ _ hfalse => valueFrom_reads (.cons htest (.cons htrue (.single hfalse)))

/-! ### Arrows -/

omit hg in
theorem genericAhead_peeks : Peeks (genericAhead m) :=
  (atMark_peeks "<").seq fun _ => .ite (.pure _) <| .ite (.pure _) (nextIs_peeks _)

omit hg in
theorem arrowParam_fits {t : Target} (h : t.Fits text) : (arrowParam t).Fits text := by
  fun_induction arrowParam t with
  | case1 id span notes => simpa using h
  | case2 target value ih =>
    rw [Target.fits_withDefault] at h ⊢
    exact ⟨ih h.1, h.2⟩
  | case3 => exact h

omit hg in
theorem arrowParam_placed {t : Target} {r : Span} (h : t.Placed text r) :
    (arrowParam t).Placed text r := by
  fun_induction arrowParam t generalizing r with
  | case1 id span notes => exact h
  | case2 target value ih =>
    obtain ⟨htext, t, v, hspread, htarget, hvalue⟩ := h
    exact ⟨htext, t, v, hspread, ih htarget, hvalue⟩
  | case3 => exact h

omit hg in
theorem arrowParam_stands {t : Target} (h : t.Stands text lo hi) :
    (arrowParam t).Stands text lo hi :=
  ⟨arrowParam_fits h.fits, h.le, arrowParam_placed h.placed⟩

theorem arrowParams_begins (hc : c.In text) (returns : Bool) :
    Begins text c (arrowParams g m returns)
      fun hi ts => Began text c.start hi ∧ InOrder (Target.Stands text) c.start hi ts := by
  refine (atMark_peeks "(").bind fun _ => genericAhead_peeks.bind fun _ => ?_
  extract_lets behind
  have hbehind : ∀ {lo targets}, Began text c.start lo →
      InOrder (Target.Stands text) c.start lo targets → Reads text lo (behind targets)
        fun hi ts => Began text c.start hi ∧ InOrder (Target.Stands text) c.start hi ts :=
    fun hbegan htargets => (atMark_peeks "=>").bind fun _ => onNewLine_peeks.bind fun _ =>
      (require_peeks _).bind fun _ => .pure ⟨hbegan, htargets⟩
  have hlisted : ∀ {lo targets}, InOrder (Target.IsParam text) c.start lo targets →
      InOrder (Target.Stands text) c.start lo (targets.map arrowParam) :=
    fun htargets => htargets.map fun ht => arrowParam_stands ht.stands
  have hreturn : Passes text (returnType? g m ":") := Runs.passes fun _ => returnType?_reads hg ":"
  refine .ite (fun _ => begins_typeParameters? hg hc (fun lo _ hbegan => ?_) ?_) fun _ => ?_
  · refine (params_reads hg).bind fun hi targets htargets => .optional hreturn (hbehind ?_ ?_)
    · exact hbegan.mono (htargets.le fun ht => ht.stands.le)
    · exact hlisted (htargets.mono_left (Nat.le_of_lt hbegan.lt)
        fun hle ht => ht.mono hle (Nat.le_refl _))
  · exact (params_begins hg hc).bind fun _ targets ⟨hbegan, htargets⟩ =>
      .optional hreturn (hbehind hbegan (hlisted htargets))
  · exact (ident_begins hc).bind fun _ id ⟨hbegan, _⟩ => hbehind hbegan
      (.cons (Target.stands_name (.mono .nil (Nat.le_refl _) (Nat.le_of_lt hbegan.lt)))
        (.nil (Nat.le_refl _)))

omit hg in
theorem asyncAhead_peeks : Peeks asyncAhead :=
  (atWord_peeks "async").seq fun _ => .ite (nextOnLineIs_peeks _) (.pure _)

omit hg in
theorem isWord_of_asyncAhead (h : asyncAhead c = some (true, c)) :
    c.token.isWord "async" = true := by
  obtain ⟨b, d, hb, hrest⟩ := bind_eq_some.1 h
  obtain ⟨rfl, rfl⟩ := Prod.mk.inj (Option.some.inj hb)
  split at hrest
  · assumption
  · cases hrest

theorem arrowHead_begins (hc : c.In text) (returns : Bool) : Begins text c (arrowHead g m returns)
    fun hi head => Began text c.start hi ∧
      InOrder (Target.Stands text) c.start hi head.params := by
  refine begins_peek asyncAhead_peeks fun async hasync => .ite (fun htrue => ?_) fun _ =>
    (arrowParams_begins hg hc returns).bind fun _ _ hparams => .pure hparams
  subst htrue
  refine (skip_begins hc (Token.opens_of_isWord (isWord_of_asyncAhead hasync))).bind
    fun lo _ hbegan => Runs.bind (Q := fun hi ts => Began text c.start hi ∧
      InOrder (Target.Stands text) c.start hi ts) (.of_begins fun d hd hle => ?_)
        fun _ _ hparams => .pure hparams
  exact (arrowParams_begins hg hd returns).mono fun _ _ ⟨hbegan', hparams⟩ =>
    ⟨hbegan.mono (Nat.le_of_lt (Nat.lt_of_le_of_lt hle hbegan'.lt)),
      hparams.mono_left (Nat.le_trans (Nat.le_of_lt hbegan.lt) hle)
        fun hle ht => ht.mono hle (Nat.le_refl _)⟩

omit hg in
theorem arrowPossible_peeks : Peeks (arrowPossible m) :=
  (atMark_peeks "(").seq fun _ => asyncAhead_peeks.seq fun _ => genericAhead_peeks.seq
    fun _ => .ite (.pure _) <| token_peeks.seq fun _ => .ite (nextIs_peeks _) (.pure _)

theorem arrowTail_reads {head : ArrowHead} (hbegan : Began text at_ lo)
    (hparams : InOrder (Target.Stands text) at_ lo head.params) :
    Reads text lo (arrowTail g m at_ head) fun hi o => o.node.Solid text at_ hi := by
  refine (mark_passes "=>").bind fun _ => (atMark_peeks openBrace).bind fun _ => ?_
  extract_lets behind
  have hbehind : ∀ {mid statements}, Node.StandAll text lo mid statements →
      Reads text mid (behind statements) fun hi o => o.node.Solid text at_ hi := by
    refine fun hstatements => (spanFrom_reads at_).bind fun _ span ⟨hle, hspan, hboundary⟩ => .pure ?_
    exact .of_span ((Node.stands_closure hparams hstatements).mono (Nat.le_refl _) hle) hspan
      (hbegan.mono (Nat.le_trans hstatements.le hle)) hboundary
  exact .ite (fun _ => (body_reads hg).bind fun _ _ hb => hbehind hb.standAll) fun _ =>
    hg.assignment.bind fun _ _ ho => hbehind (.single ho)

theorem arrowBeforeColon_begins (hc : c.In text) :
    Begins text c (arrowBeforeColon g m) fun hi o => o.node.Solid text c.start hi :=
  begins_start ((arrowHead_begins hg hc true).bind fun _ _ ⟨hbegan, hparams⟩ =>
    (arrowTail_reads hg hbegan hparams).bind fun _ _ ho => (atMark_peeks ":").bind fun _ =>
      (require_peeks _).bind fun _ => .pure ho)

theorem arrow?_offers (hc : c.In text) :
    Offers text c (arrow? g m) fun hi o => o.node.Solid text c.start hi := by
  refine arrowPossible_peeks.offer fun _ => .ite (fun _ => .nothing) fun _ => .start ?_
  extract_lets behind
  have hgiven : ∀ {lo o}, o.node.Solid text c.start lo → Reads text lo (behind (some o))
      fun hi a => ∃ o, a = some o ∧ o.node.Solid text c.start hi :=
    fun ho => .pure ⟨_, rfl, ho⟩
  have hnone : Offers text c (behind none) fun hi o => o.node.Solid text c.start hi :=
    .orElse (.attempt (arrowHead_begins hg hc _)) (fun _ _ ⟨hbegan, hparams⟩ =>
      (arrowTail_reads hg hbegan hparams).bind fun _ _ ho => .pure ⟨_, rfl, ho⟩) .nothing
  exact .ite (fun _ => .orElse (.attempt (arrowBeforeColon_begins hg hc)) (fun _ _ ho => hgiven ho)
    hnone) fun _ => hnone

/-! ### Assignments -/

omit hg in
theorem yieldsNothing_peeks : Peeks yieldsNothing :=
  token_peeks.seq fun _ => onNewLine_peeks.seq fun _ => .pure _

theorem yieldExpression_begins (hc : c.In text) :
    Begins text c (yieldExpression g m) fun hi o => o.node.Solid text c.start hi := by
  refine begins_start ((word_begins hc "yield").bind fun _ _ hbegan => (require_peeks _).bind
    fun _ => yieldsNothing_peeks.bind fun _ => .ite
      (fun _ => valueFrom_reads (.behind hbegan .nil)) fun _ => (mark?_passes "*").bind fun _ => ?_)
  exact hg.assignment.bind fun _ _ ho => valueFrom_reads (.behind hbegan (.single ho))

theorem plainAssignment_begins (hc : c.In text) :
    Begins text c (plainAssignment g m) fun hi o => o.node.Solid text c.start hi := by
  refine begins_start ((conditional_begins hg hc).bind fun lo left hleft => ?_)
  have hassign : ∀ b, Reads text lo (do
      require b
      skip
      valueFrom c.start [left.node, (← g.assignment m).node])
        fun hi o => o.node.Solid text c.start hi := fun b =>
    (require_peeks b).bind fun _ => skip_passes.bind fun _ => hg.assignment.bind fun _ _ ho =>
      valueFrom_reads (.cons hleft (.single ho))
  exact token_peeks.bind fun _ => .ite (fun _ => hassign _) fun _ =>
    .ite (fun _ => hassign _) fun _ => .pure hleft

theorem assignment_begins (hc : c.In text) :
    Begins text c (assignment g m) fun hi o => o.node.Solid text c.start hi :=
  (atWord_peeks "yield").bind fun _ => .ite (fun _ => yieldExpression_begins hg hc) fun _ =>
    (arrow?_offers hg hc).bind (fun _ _ ho => .pure ho) (plainAssignment_begins hg hc)

theorem expression_begins (hc : c.In text) :
    Begins text c (expression g m) (Node.Stands text c.start) := by
  refine begins_start ((hg.assignmentAt hc).bind fun _ _ hfirst => (mark?_passes ",").bind
    fun _ => .ite (fun _ => ?_) fun _ => .pure hfirst.stands)
  exact (separated_reads (fun _ => hg.assignment) "," g.bound).bind fun _ _ hmore =>
    (spanFrom_peeks c.start).bind fun _ =>
      .pure (Node.stands_group (.cons hfirst.stands (.of_inOrder (hmore.map id))))

end

end ParamLowering.Grammar
