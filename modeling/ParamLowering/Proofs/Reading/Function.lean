import ParamLowering.Grammar.Class
import ParamLowering.Proofs.Reading.Type
set_option autoImplicit false

/-!
Functions and classes stand where they were read.

The body of a function is where the addresses of a function come from: its range opens with the
brace that was read first, its statements lie behind that brace, and the step that ends them read
the closing brace or stood at the end of the text. The parameters stand in front of it.
-/

namespace ParamLowering

open ParamLowering.Grammar

/-- What a brace opens begins with a character of one byte. -/
theorem Span.Opens.exists_char {text : List Char} {s : Span} (h : s.Opens text openBrace) :
    ∃ c after, Text.from? text s.start = some (c :: after) ∧ Text.isBlank c = false ∧ c ≠ ',' ∧
      c.utf8Size = 1 := by
  obtain ⟨part, rest, hpart, hrest, ⟨more, rfl⟩ | hmarkup⟩ := h
  · obtain ⟨before, after, htext, hbefore, -⟩ := Text.slice?_eq_some_iff.1 hpart
    have hfrom : Text.from? text s.start = some (openBrace.toList ++ more ++ after) :=
      Text.from?_eq_some_iff.2 ⟨before, by rw [htext, List.append_assoc], hbefore⟩
    exact ⟨'\x7b', more ++ after, hfrom, by decide, by decide, by decide⟩
  · obtain ⟨c, after, rfl, hblank, hcomma, hsize⟩ := opening_of_beginsMarkup hmarkup
    exact ⟨c, after, hrest, hblank, hcomma, hsize⟩

end ParamLowering

namespace ParamLowering.Grammar

open ParamLowering.Tree Parse

variable {text : List Char} {lo lo' mid hi at_ : Nat} {g : Rules} {m : Mode} {c : Cursor}

/-! ### Bodies -/

/-- The body of a function stands between two offsets and reaches up to the second one. -/
structure Body.Stands (text : List Char) (lo hi : Nat) (b : Body) : Prop where
  le : lo ≤ b.span.start
  stop : b.span.stop = hi
  opens : b.span.Opens text openBrace
  closes : b.span.Closes text
  anchor : b.span.start < bodyAnchor b.span b.statements
  boundary : Text.isBoundary text (bodyAnchor b.span b.statements) = true
  statements : Node.StandAll text (bodyAnchor b.span b.statements) hi b.statements
  behind : ∀ n ∈ b.statements, b.span.start < n.span.start

namespace Body.Stands

variable {b : Body}

theorem mono (h : b.Stands text lo hi) (hle : lo' ≤ lo) : b.Stands text lo' hi :=
  { h with le := Nat.le_trans hle h.le }

theorem standAll (h : b.Stands text lo hi) : Node.StandAll text lo hi b.statements :=
  h.statements.mono (Nat.le_trans h.le (Nat.le_of_lt h.anchor)) (Nat.le_refl _)

end Body.Stands

/-- What began before the bound, and ends here, closes. -/
def Cursor.Closes (text : List Char) (lo : Nat) (c : Cursor) : Prop :=
  ∀ s : Span, s.start < lo → Text.isBoundary text s.start = true → s.stop = c.lastStop →
    s.Closes text

theorem Cursor.At.closes_next (hc : c.At text lo) (h : c.token.isMark closeBrace = true) :
    c.next.Closes text lo := by
  intro s hlt hstart hs
  have hlexes := hc.inText.lexes
  rw [Token.eq_mark_of_isMark h] at hlexes
  have hplace := hc.le_place
  have hle := hc.inText.place_le_ahead
  rw [Cursor.next, Cursor.ofPlace_lastStop] at hs
  exact Span.closes_of_place hc.inText.ahead_in hs (by omega) hstart
    (.inl ⟨c.place, hc.inText.place_in, by omega, (hlexes.mark closeBrace rfl).1⟩)

/-- A cursor that has read something stands behind what it read last, so that nothing but blanks
and comments lies between that and the end of the text. -/
theorem Cursor.At.closes_finish (hc : c.At text lo) (h : c.token = .finish) :
    c.Closes text lo := by
  intro s hlt hstart hs
  have hbound := hc.bound
  cases hc.inText with
  | source =>
    rw [Cursor.ofSource, Cursor.ofPlace_lastStop] at hbound
    omega
  | @behind p hp =>
    rw [Cursor.behind, Cursor.ofPlace_lastStop] at hs hbound
    refine Span.closes_of_place hp hs (by omega) hstart (.inr ?_)
    unfold Cursor.behind Cursor.ofPlace at h
    split at h
    · cases h
    · rename_i t q hskip
      exact ⟨t, q, p.offset, hskip, (readToken_lexes q).finish h⟩

theorem blockEnd?_passes : Passes text blockEnd? :=
  (mark?_passes closeBrace).seq fun _ => .ite (.pure _) (token_peeks.passes.seq fun _ => .pure _)

theorem blockEnd?_closes {c' : Cursor} (hc : c.At text lo)
    (h : blockEnd? c = some (true, c')) : c'.Closes text lo := by
  obtain ⟨b, d, hbrace, hrest⟩ := bind_eq_some.1 h
  rcases mark?_eq_some hbrace with ⟨rfl, htoken, rfl⟩ | ⟨rfl, rfl⟩
  · obtain ⟨-, rfl⟩ := Prod.mk.inj (Option.some.inj hrest)
    exact hc.closes_next htoken
  · obtain ⟨hfinish, rfl⟩ := Prod.mk.inj (Option.some.inj hrest)
    exact hc.closes_finish (eq_of_beq hfinish)

/-- New statements go in front of the first one of a body, or behind its brace. -/
theorem standAll_from_anchor {s : Span} {ns : List Node} (hs : s.Opens text openBrace)
    (hlo : s.start < lo) (h : InOrder (Node.Follows text) lo hi ns) :
    s.start < bodyAnchor s ns ∧ Text.isBoundary text (bodyAnchor s ns) = true ∧
      Node.StandAll text (bodyAnchor s ns) hi ns := by
  cases h with
  | nil hle =>
    obtain ⟨c, after, hafter, -, -, hsize⟩ := hs.exists_char
    obtain ⟨before, htext, hlength⟩ := Text.from?_eq_some_iff.1 hafter
    refine ⟨Nat.lt_succ_self _, Text.isBoundary_iff.2 ⟨before ++ [c], after, by simp [htext], ?_⟩,
      .mono .nil (Nat.le_refl _) (Nat.le_trans hlo hle)⟩
    simp [Text.byteLength, hlength, hsize, bodyAnchor]
  | @cons _ _ _ n ns hn hns =>
    obtain ⟨at_, hle, hstands, hstart, hboundary⟩ := hn
    have hanchor : bodyAnchor s (n :: ns) = at_ := hstart
    rw [hanchor]
    exact ⟨Nat.lt_of_lt_of_le hlo hle, hboundary,
      .cons hstands (.of_inOrder (hns.mono Node.Follows.stands))⟩

section

variable (hg : g.Reads text)

include hg

theorem statement_or_end_reads : Reads text lo
    (do if ← blockEnd? then return none else return some (← g.statement m))
    fun hi o => ∀ n ∈ o, n.Follows text lo hi :=
  blockEnd?_passes.bind fun _ => .ite (fun _ => .absent) fun _ => hg.statement.present

theorem statementsToBrace_reads :
    Reads text lo (statementsToBrace g m) (InOrder (Node.Follows text) lo) :=
  repeated_reads (fun _ => statement_or_end_reads hg) g.bound

theorem statementsToBrace_closes {c' : Cursor} {ns : List Node} (hc : c.At text lo)
    (h : statementsToBrace g m c = some (ns, c')) : c'.Closes text lo := by
  have hstep : Passes text
      (do if ← blockEnd? then return none else return some (← g.statement m)) :=
    Runs.passes (S := fun lo hi o => ∀ n ∈ o, n.Follows text lo hi) fun _ =>
      statement_or_end_reads hg
  obtain ⟨d, hd, hle, hlast⟩ := hstep.repeated_last hc.inText h
  obtain ⟨b, e, hend, hrest⟩ := bind_eq_some.1 hlast
  cases b with
  | true =>
    obtain ⟨-, rfl⟩ := Prod.mk.inj (Option.some.inj hrest)
    exact blockEnd?_closes ⟨hd, Nat.le_trans hc.bound hle⟩ hend
  | false =>
    obtain ⟨n, f, -, hnone⟩ := bind_eq_some.1 hrest
    cases hnone

theorem body_begins (hc : c.In text) : Begins text c (body g m)
    fun hi b => b.span.start = c.start ∧ b.Stands text c.start hi := by
  refine begins_start ?_
  rintro _ c' b rfl h
  obtain ⟨_, d, hbrace, hrest⟩ := bind_eq_some.1 h
  obtain ⟨htoken, rfl⟩ := mark_eq_some hbrace
  obtain ⟨ns, e, hns, hspan⟩ := bind_eq_some.1 hrest
  obtain ⟨rfl, rfl⟩ := Prod.mk.inj (Option.some.inj hspan)
  have hlt : c.start < c.ahead.offset := (hc.began (Token.opens_of_isMark htoken (by decide))).lt
  obtain ⟨hi, hle, he, hin⟩ := statementsToBrace_reads hg _ _ _ hc.next_at hns
  have hopens := hc.opensFrom htoken ⟨c.start, e.lastStop⟩ rfl (Nat.le_trans hle he.bound)
    he.inText.isBoundary_lastStop
  obtain ⟨hanchor, hboundary, hstand⟩ := standAll_from_anchor hopens hlt hin
  exact ⟨e.lastStop, Nat.le_trans hc.start_le_ahead (Nat.le_trans hle he.bound),
    ⟨he.inText, Nat.le_refl _⟩, rfl, {
      le := Nat.le_refl _
      stop := rfl
      opens := hopens
      closes := statementsToBrace_closes hg hc.next_at hns _ hlt hc.isBoundary_start rfl
      anchor := hanchor
      boundary := hboundary
      statements := hstand.mono (Nat.le_refl _) he.bound
      behind := fun n hn => by
        obtain ⟨_, _, hlo, at_, hat, hn⟩ := hin.forall_from (fun h => h.stands.le) n hn
        exact hn.start ▸ Nat.lt_of_lt_of_le hlt (Nat.le_trans hlo hat) }⟩

theorem body_reads : Reads text lo (body g m) (Body.Stands text lo) :=
  .of_begins fun _ hc hle => (body_begins hg hc).mono fun _ _ hb => hb.2.mono hle

theorem body?_reads : Reads text lo (body? g m)
    fun hi o => lo ≤ hi ∧ ∀ b ∈ o, b.Stands text lo hi :=
  (atMark_peeks openBrace).bind fun _ => .ite
    (fun _ => semicolon_passes.bind fun _ => .pure ⟨Nat.le_refl _, by simp⟩)
    fun _ => (body_reads hg).bind fun _ b hb => .pure ⟨hb.standAll.le, by simpa using hb⟩

end

/-! ### What follows the name of a function -/

/-- The parameters stand one behind the other, and the body behind them. -/
def Callable.Stands (text : List Char) (Q : Nat → Nat → Target → Prop) (lo hi : Nat)
    (c : Callable) : Prop :=
  ∃ mid, InOrder Q lo mid c.params ∧ mid ≤ hi ∧ ∀ b ∈ c.body, b.Stands text mid hi

namespace Callable.Stands

theorem asFunction {c : Callable} (h : c.Stands text (Target.IsParam text) lo hi)
    (name : Option String) (span : Span) : Node.StandAll text lo hi (c.asFunction name span) := by
  obtain ⟨mid, hparams, hle, hbody⟩ := h
  unfold Callable.asFunction
  split
  · rename_i b hb
    have hb := hbody b hb
    obtain ⟨hfits, hanchor, bs, hbs, hspread⟩ := hb.statements
    obtain ⟨hlo, ps, hps, hwithin, hinOrder⟩ :=
      InOrder.exists_ranges (P := fun t r => t.Lies text r ∧ t.Placed text r)
        (hparams.mono fun ht => ⟨ht.stands.le, ht.lies, ht.stands.placed⟩)
    refine .single ⟨Node.fits_function.2 ⟨⟨hparams.forall_mem fun ht => ht.opens, hb.opens,
      hb.closes, hb.behind⟩, hparams.forall_mem fun ht => ht.stands.fits, hfits⟩,
      Nat.le_trans hlo hle, ps, bs, ?_, ?_, Node.allPlaced_iff.2 hbs⟩
    · exact {
        params := hps.imp fun _ _ h => h.1
        inOrder := hinOrder
        beforeBody := fun p hp => (hwithin.within p hp).trans ⟨Nat.le_refl _, hb.le⟩
        within := ⟨Nat.le_trans hlo hb.le, Nat.le_of_eq hb.stop⟩
        brace := hb.opens.exists_char
        anchor := ⟨hb.anchor, hb.stop ▸ hanchor⟩
        boundary := hb.boundary
        statements := hb.stop ▸ hspread }
    · exact Target.allPlaced_iff.2 (hps.imp fun _ _ h => h.2)
  · exact .mono .nil (Nat.le_refl _)
      (Nat.le_trans (hparams.le fun ht => ht.stands.le) hle)

theorem asAccessor {c : Callable} (h : c.Stands text (Target.IsParam text) lo hi) (span : Span) :
    Node.StandAll text lo hi (c.asAccessor span) := by
  obtain ⟨mid, hparams, hle, hbody⟩ := h
  unfold Callable.asAccessor
  split
  · rename_i b hb
    exact .single (Node.stands_closure (hparams.mono fun ht => ht.stands) (hbody b hb).standAll)
  · exact .mono .nil (Nat.le_refl _)
      (Nat.le_trans (hparams.le fun ht => ht.stands.le) hle)

theorem asClosure {c : Callable} (h : c.Stands text (Target.Stands text) lo hi) (span : Span) :
    (c.asClosure span).Stands text lo hi := by
  obtain ⟨mid, hparams, hle, hbody⟩ := h
  refine Node.stands_closure hparams ?_
  cases hc : c.body with
  | none => exact .mono .nil (Nat.le_refl _) hle
  | some b => exact (hbody b hc).standAll

theorem map {Q R : Nat → Nat → Target → Prop} {c : Callable} (h : c.Stands text Q lo hi)
    {f : List Target → List Target}
    (hf : ∀ {hi}, InOrder Q lo hi c.params → InOrder R lo hi (f c.params)) :
    Callable.Stands text R lo hi ⟨f c.params, c.body⟩ := by
  obtain ⟨mid, hparams, hbody⟩ := h
  exact ⟨mid, hf hparams, hbody⟩

end Callable.Stands

section

variable (hg : g.Reads text)

include hg

theorem callable_reads {list : Rules → Mode → Parse (List Target)}
    {body : Rules → Mode → Parse (Option Body)} {Q : Nat → Nat → Target → Prop}
    (hlist : ∀ m, Reads text lo (list g m) (InOrder Q lo))
    (hbody : ∀ {lo} m, Reads text lo (body g m)
      fun hi o => lo ≤ hi ∧ ∀ b ∈ o, b.Stands text lo hi) :
    Reads text lo (callable g m list body) (Callable.Stands text Q lo) :=
  (typeParameters?_reads hg).drop fun _ => (hlist _).bind fun mid _ hparams =>
    (returnType?_reads hg ":").drop fun _ => (hbody _).bind fun _ _ hb =>
      .pure ⟨mid, hparams, hb⟩

theorem complete_reads :
    Reads text lo (complete g m) (Callable.Stands text (Target.IsParam text) lo) :=
  callable_reads hg (fun _ => params_reads hg) fun _ => (body_reads hg).bind fun _ _ hb =>
    .pure ⟨hb.standAll.le, by simpa using hb⟩

theorem signature_reads :
    Reads text lo (signature g m) (Callable.Stands text (Target.IsParam text) lo) :=
  callable_reads hg (fun _ => params_reads hg) fun _ => body?_reads hg

end

theorem functionHead_begins (hc : c.In text) :
    Begins text c functionHead fun hi _ => Began text c.start hi :=
  begins_word? hc
    (fun htoken => (word_passes "function").bind fun _ => (mark?_passes "*").bind fun _ =>
      .pure (hc.began (Token.opens_of_isWord htoken)))
    ((word_begins hc "function").bind fun _ _ hbegan => (mark?_passes "*").bind fun _ =>
      .pure hbegan)

theorem atFunction_peeks : Peeks atFunction :=
  (atWord_peeks "function").seq fun _ => .ite (.pure _) <|
    (atWord_peeks "async").seq fun _ => .ite (nextOnLineIs_peeks _) (.pure _)

theorem standAll_nameOf (id : Option Ident) :
    Node.StandAll text lo lo (id.map Node.name).toList := by
  cases id with
  | none => exact .nil
  | some id => exact .name .nil

section

variable (hg : g.Reads text)

include hg

theorem functionDeclaration_begins (hc : c.In text) (hat : Starts text at_ c.start) :
    Begins text c (functionDeclaration g m at_) (Node.StandsAt text at_) :=
  (functionHead_begins hc).bind fun _ _ hbegan => ident_passes.bind fun id =>
    (signature_reads hg).bind fun _ _ hc => (spanFrom_reads at_).bind fun _ _ hspan =>
      .pure (.group (hat.mono hbegan.le) hspan
        (.cons (Node.stands_functionName id) (hc.asFunction _ _)))

omit hg in
theorem functionExpression_begins (hc : c.In text) {read : Rules → Mode → Parse Callable}
    (hread : ∀ {lo : Nat} (m : Mode),
      Reads text lo (read g m) (Callable.Stands text (Target.IsParam text) lo)) :
    Begins text c (functionExpression g m read) fun hi n => n.Solid text c.start hi :=
  begins_start ((functionHead_begins hc).bind fun _ _ hbegan => token_peeks.bind fun _ =>
    (Passes.pure none).branch (ident_passes.map some) fun id => (hread _).bind fun _ _ hc =>
      (spanFrom_reads c.start).bind fun _ _ hspan => .pure
        (Node.Begun.group (.behind hbegan (.append (standAll_nameOf id) (hc.asFunction _ _))) hspan))

end

/-! ### Methods -/

theorem memberForm_passes : Passes text memberForm :=
  (mark?_passes "*").seq fun _ => .ite (.pure _) <| get_peeks.passes.seq fun _ => .ite
    (skip_passes.seq fun _ => (mark?_passes "*").seq fun _ => .pure _) <|
      .ite (skip_passes.seq fun _ => .pure _) <| .ite (skip_passes.seq fun _ => .pure _) (.pure _)

theorem atSignature_peeks : Peeks (atSignature m) :=
  (atMark_peeks "<").seq fun _ => .ite (.pure _) (atMark_peeks "(")

section

variable (hg : g.Reads text) {k : Key}

include hg

/-- The key of a method with what stands behind it. -/
theorem method_reads (hk : k.Stands text lo' lo) (name : Option String) (at_ : Nat) :
    Reads text lo (do
      let c ← signature g m
      return k.parts ++ c.asFunction name (← spanFrom at_)) (Node.StandAll text lo') :=
  (signature_reads hg).bind fun _ _ hc => (spanFrom_peeks at_).bind fun _ =>
    .pure (hk.parts.append (hc.asFunction _ _))

/-! ### Classes -/

omit hg in
theorem memberWord?_passes : Passes text (memberWord? m) := by
  refine token_peeks.passes.seq fun t => ?_
  split
  · exact (nextIs_peeks _).passes.seq fun _ => .ite (skip_passes.seq fun _ => .pure _) (.pure _)
  · exact .pure _

omit hg in
theorem className?_passes : Passes text (className? m) :=
  token_peeks.passes.seq fun _ => .ite ((require_peeks _).passes.seq fun _ =>
    ident_passes.seq fun _ => .pure _) (.pure _)

theorem fieldTail_reads (at_ : Nat) (hk : k.Stands text lo' lo) :
    Reads text lo (fieldTail g m at_ k) (Node.StandAll text lo') := by
  have hend : Reads text lo (do
      let notes := (← typeNotes? g m).getD []
      let value ← if ← mark? "=" then
          pure [(← g.assignment (m.inFunction false false)).node]
        else pure []
      let _ ← mark? ";"
      return [.group (← spanFrom at_) (k.parts ++ value ++ notes)]) (Node.StandAll text lo') := by
    refine (typeNotes?_reads hg).bind fun mid notes hnotes => (mark?_passes "=").bind fun _ =>
      .made (S := Node.StandAll text mid) (hg.assignment.mono fun _ _ ho => .single ho) .nil
        fun _ value hvalue => (mark?_passes ";").bind fun _ => (spanFrom_peeks at_).bind fun _ =>
          .pure (.single (Node.stands_group ?_))
    rw [List.append_assoc]
    exact hk.parts.append (hnotes.prepend hvalue)
  exact (require_peeks _).bind fun _ => .ite (fun _ => (mark?_passes "?").bind fun _ =>
    .optional (mark?_passes "!") hend) fun _ => hend

theorem plainMember_reads (at_ : Nat) (words : List String) (hk : k.Stands text lo' lo) :
    Reads text lo (plainMember g m at_ words k) (Node.StandAll text lo') := by
  refine (atMark_peeks "?").bind fun _ => (nextIs_peeks _).passes.branch (.pure _)
    fun _ => .optional skip_passes ?_
  refine atSignature_peeks.bind fun _ => .ite (fun _ => (require_peeks _).bind fun _ => ?_)
    fun _ => fieldTail_reads hg at_ hk
  refine .ite (fun _ => ?_) fun _ => method_reads hg hk _ _
  exact (callable_reads hg (fun _ => constructorParams_reads hg) fun _ => body?_reads hg).bind
    fun _ c hc => (spanFrom_peeks at_).bind fun _ =>
      .pure (.single ((hc.asClosure _).mono hk.parts.le (Nat.le_refl _)))

theorem wordedMember_reads (at_ : Nat) (words : List String) :
    Reads text lo (wordedMember g m at_ words) (Node.StandAll text lo) := by
  have haccessor : Reads text lo (do
      let k ← key g m
      let c ← signature g (m.inFunction false false)
      return k.parts ++ c.asAccessor (← spanFrom at_)) (Node.StandAll text lo) :=
    (key_reads hg).bind fun _ k hk => (signature_reads hg).bind fun _ c hc =>
      (spanFrom_peeks at_).bind fun _ => .pure (hk.parts.append (hc.asAccessor _))
  refine memberForm_passes.bind fun form => ?_
  cases form with
  | plain => exact (key_reads hg).bind fun _ k hk => plainMember_reads hg at_ words hk
  | method async generator =>
    exact (key_reads hg).bind fun _ k hk => (require_peeks _).bind fun _ =>
      .optional (mark?_passes "?") (method_reads hg hk _ _)
  | getter => exact haccessor
  | setter => exact haccessor

theorem classMember_reads : Reads text lo (classMember g m) (Node.StandAll text lo) := by
  refine (mark?_passes ";").bind fun _ => .ite (fun _ => .pure .nil) fun _ =>
    start_peeks.bind fun at_ => (memberWord?_passes.repeated g.bound).bind fun words =>
      (atMark_peeks openBrace).bind fun _ => .ite (fun _ => ?_) fun _ => ?_
  · exact (body_reads hg).bind fun _ b hb => .pure (.single (Node.stands_block hb.standAll))
  · refine (atMark_peeks "[").bind fun _ => (ahead_peeks _).passes.branch (.pure _) fun _ =>
      .ite (fun _ => ?_) fun _ => wordedMember_reads hg at_ words
    exact (indexSignature_reads hg).bind fun _ _ hnames => semicolon_passes.bind fun _ =>
      .pure hnames

theorem classMembers_reads : Reads text lo (classMembers g m) (Node.StandAll text lo) := by
  refine (mark_passes openBrace).bind fun _ => (repeated_reads (fun _ => ?_) g.bound).bind
    fun _ _ hmembers => .pure (.flatten hmembers)
  exact blockEnd?_passes.bind fun _ =>
    .ite (fun _ => .absent) fun _ => (classMember_reads hg).present

theorem heritage?_reads (name : String) :
    Reads text lo (heritage? g m name) (Node.StandAll text lo) :=
  (word?_passes name).bind fun _ => .ite
    (fun _ => (separated_reads (fun _ => typeReference_reads hg) "," g.bound).bind
      fun _ _ htypes => .pure (.flatten htypes)) fun _ => .pure .nil

/-- What a class extends and promises is read in front of its members, and listed behind them. -/
theorem classTail_reads : Reads text lo (classTail g m) (Node.StandAll text lo) := by
  refine (typeParameters?_reads hg).bind fun mid own hown => (word?_passes "extends").bind
    fun _ => ?_
  extract_lets promise
  have hmembers : ∀ hi base, Node.StandAll text mid hi base →
      Reads text hi (promise base) (Node.StandAll text lo) := by
    refine fun hi base hbase => .branch (heritage?_reads hg "implements") (.pure .nil)
      fun _ promised hpromised => (classMembers_reads hg).bind fun _ members hmembers => .pure ?_
    have hheritage := (hown.prepend hbase).append hpromised
    simpa only [List.append_assoc] using hheritage.prepend hmembers
  refine .ite (fun _ => ?_) fun _ => hmembers mid [] .nil
  exact hg.operand.bind fun _ base hbase => .branch (typeArguments?_reads hg) (.pure .nil)
    fun _ given hgiven => hmembers _ _ (.cons hbase hgiven)

theorem classDeclaration_begins (hc : c.In text) (hat : Starts text at_ c.start) :
    Begins text c (classDeclaration g m at_) (Node.StandsAt text at_) := by
  refine (word_begins hc "class").bind fun _ _ hbegan => className?_passes.bind fun id => ?_
  cases id with
  | none => exact .failure
  | some id =>
    exact (classTail_reads hg).bind fun _ _ hparts => (spanFrom_reads at_).bind fun _ _ hspan =>
      .pure (.group (hat.mono hbegan.le) hspan (.cons (Node.stands_className id) hparts))

theorem classExpression_begins (hc : c.In text) :
    Begins text c (classExpression g m) fun hi n => n.Solid text c.start hi :=
  begins_start ((word_begins hc "class").bind fun _ _ hbegan => className?_passes.bind fun id =>
    (classTail_reads hg).bind fun _ _ hparts => (spanFrom_reads c.start).bind fun _ _ hspan =>
      .pure (Node.Begun.group (.behind hbegan (.append (standAll_nameOf id) hparts)) hspan))

end

end ParamLowering.Grammar
