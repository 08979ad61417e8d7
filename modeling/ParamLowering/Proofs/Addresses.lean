import ParamLowering.Proofs.Reading
import ParamLowering.Proofs.Subtree
set_option autoImplicit false

/-!
Trees whose functions address their text.

The body of a function begins and ends with its braces, and a pattern or a rest parameter begins
with its sign. A token may count from a comment in the manner of markup in front of it, and at
the end of a text the closing brace of a body may be missing.
-/

namespace ParamLowering

open ParamLowering.Grammar

namespace Span

/-- The text of a range begins with a sign, or a comment in the manner of markup stands there. -/
def Opens (text : List Char) (sign : String) (s : Span) : Prop :=
  ∃ part rest, s.text? text = some part ∧ Text.from? text s.start = some rest ∧
    (sign.toList <+: part ∨ BeginsMarkup rest)

/-- The text of a range ends with a brace, or nothing but blanks and comments is left behind it. -/
def Closes (text : List Char) (s : Span) : Prop :=
  ∃ part rest, s.text? text = some part ∧ Text.from? text s.stop = some rest ∧
    (closeBrace.toList <:+ part ∨ OnlyTrivia rest)

variable {text : List Char} {s : Span} {p : Place}

theorem opens_of_place (hp : p.In text) (hs : s.start = p.offset) (hle : s.start ≤ s.stop)
    (hstop : Text.isBoundary text s.stop = true) {sign : String}
    (h : (sign.toList <+: p.rest ∧ s.start + Text.byteLength sign.toList ≤ s.stop) ∨
      BeginsMarkup p.rest) : s.Opens text sign := by
  obtain ⟨before, part, after, rfl, hbefore, hpart⟩ :=
    Text.exists_split (hs ▸ hp.isBoundary) hstop hle
  have hrest : Text.from? (before ++ part ++ after) s.start = some (part ++ after) :=
    Text.from?_eq_some_iff.2 ⟨before, List.append_assoc _ _ _, hbefore⟩
  have heq : p.rest = part ++ after := Option.some.inj (by rw [← hp.from?_eq, ← hs, hrest])
  refine ⟨part, part ++ after, Text.slice?_eq_some_iff.2 ⟨before, after, rfl, hbefore, hpart⟩,
    hrest, ?_⟩
  rw [heq] at h
  refine h.imp (fun ⟨hsign, hlength⟩ => ?_) id
  obtain ⟨more, hmore⟩ := hsign
  obtain ⟨ms, hms, -⟩ := Text.exists_append_of_byteLength_le hmore (by omega)
  exact ⟨ms, hms.symm⟩

theorem closes_of_place (hp : p.In text) (hs : s.stop = p.offset) (hle : s.start ≤ s.stop)
    (hstart : Text.isBoundary text s.start = true)
    (h : (∃ q : Place, q.In text ∧ s.start ≤ q.offset ∧ q.rest = closeBrace.toList ++ p.rest) ∨
      OnlyTrivia p.rest) : s.Closes text := by
  obtain ⟨before, part, after, rfl, hbefore, hpart⟩ :=
    Text.exists_split hstart (hs ▸ hp.isBoundary) hle
  have hrest : Text.from? (before ++ part ++ after) s.stop = some after :=
    Text.from?_eq_some_iff.2 ⟨before ++ part, rfl, by simpa using hpart⟩
  have heq : p.rest = after := Option.some.inj (by rw [← hp.from?_eq, ← hs, hrest])
  rw [heq] at h
  refine ⟨part, after, Text.slice?_eq_some_iff.2 ⟨before, after, rfl, hbefore, hpart⟩, hrest,
    h.imp (fun ⟨q, hq, hqle, hbrace⟩ => ?_) id⟩
  obtain ⟨upto, hupto, hqoffset⟩ := hq
  dsimp only at hupto hqoffset
  rw [hbrace, List.append_assoc] at hupto
  obtain ⟨ms, -, hms⟩ := Text.exists_append_of_byteLength_le hupto (by omega)
  rw [← List.append_assoc, List.append_cancel_right_eq] at hms
  exact ⟨ms, hms.symm⟩

end Span

/-- A sign opens every range from an offset to a place at or behind a bound. -/
def Grammar.OpensFrom (text : List Char) (sign : String) (start lo : Nat) : Prop :=
  ∀ s : Span, s.start = start → lo ≤ s.stop → Text.isBoundary text s.stop = true →
    s.Opens text sign

/-- The sign of a token opens the ranges that go on behind it. -/
theorem Grammar.Cursor.In.opensFrom {text : List Char} {c : Cursor} (hc : c.In text)
    {sign : String} (h : c.token.isMark sign = true) :
    OpensFrom text sign c.start c.ahead.offset := by
  have hlexes := hc.lexes
  rw [Token.eq_mark_of_isMark h] at hlexes
  obtain ⟨hrest, hoffset⟩ := hlexes.mark sign rfl
  have hlength : Text.byteLength sign.toList = sign.length := by
    obtain ⟨part, hpart, hahead⟩ := hlexes.leads
    rw [hrest, List.append_cancel_right_eq] at hpart
    rw [hpart]
    omega
  have hstart := hc.start_le_place
  intro s hs hstop hboundary
  rcases hc.start_eq with heq | ⟨r, hr, hmarkup, heq⟩
  · exact Span.opens_of_place hc.place_in (hs.trans heq) (by omega) hboundary
      (.inl ⟨⟨_, hrest.symm⟩, by omega⟩)
  · exact Span.opens_of_place hr (hs.trans heq) (by omega) hboundary (.inr hmarkup)

namespace Tree

/-- A parameter that is more than a name begins with its sign. -/
def Target.Opens (text : List Char) : Target → Prop
  | .object span _ _ => span.Opens text openBrace
  | .array span _ _ => span.Opens text "["
  | .rest span _ _ => span.Opens text "..."
  | .withDefault target _ => target.Opens text
  | .name .. | .undeclared _ => True

/-- The ranges of a function address its braces, what comes first behind them, and the signs of
its parameters. -/
structure FunctionOpens (text : List Char) (params : List Target) (bodySpan : Span)
    (body : List Node) : Prop where
  params : ∀ t ∈ params, t.Opens text
  opens : bodySpan.Opens text openBrace
  closes : bodySpan.Closes text
  statements : ∀ s ∈ body, bodySpan.start < s.span.start

/-- What is asked of a node on its own: of a function that it addresses the text. -/
def Node.Addresses (text : List Char) : Node → Prop
  | .function _ _ params bodySpan body => FunctionOpens text params bodySpan body
  | n => n.DeclaresVariables

/-- All nodes of a part address the text. -/
def Node.Fits (text : List Char) (n : Node) : Prop := ∀ m ∈ n.nodes, m.Addresses text

def Node.FitAll (text : List Char) (ns : List Node) : Prop := ∀ n ∈ ns, n.Fits text

def Target.Fits (text : List Char) (t : Target) : Prop := ∀ m ∈ t.nodes, m.Addresses text

def Field.Fits (text : List Char) (f : Field) : Prop := ∀ m ∈ f.nodes, m.Addresses text

def Slot.Fits (text : List Char) (s : Slot) : Prop := ∀ t ∈ s.target?, t.Fits text

variable {text : List Char}

namespace Node

namespace FitAll

variable {n : Node} {ns ms : List Node}

@[simp] theorem nil : FitAll text [] := by simp [FitAll]

theorem cons (hn : n.Fits text) (hns : FitAll text ns) : FitAll text (n :: ns) :=
  List.forall_mem_cons.2 ⟨hn, hns⟩

theorem single (hn : n.Fits text) : FitAll text [n] := .cons hn .nil

theorem append (hns : FitAll text ns) (hms : FitAll text ms) : FitAll text (ns ++ ms) :=
  List.forall_mem_append.2 ⟨hns, hms⟩

end FitAll

@[simp] theorem fits_name (id : Ident) : (Node.name id).Fits text := by
  simp [Fits, Addresses, DeclaresVariables]

@[simp] theorem fits_functionName (id : Ident) : (Node.functionName id).Fits text := by
  simp [Fits, Addresses, DeclaresVariables]

@[simp] theorem fits_className (id : Ident) : (Node.className id).Fits text := by
  simp [Fits, Addresses, DeclaresVariables]

@[simp] theorem fits_group {span : Span} {parts : List Node} :
    (Node.group span parts).Fits text ↔ Node.FitAll text parts := by
  simp [Fits, FitAll, Addresses, DeclaresVariables, forall_nodesAll]

@[simp] theorem fits_function {name : Option String} {span bodySpan : Span}
    {params : List Target} {body : List Node} :
    (Node.function name span params bodySpan body).Fits text ↔
      FunctionOpens text params bodySpan body ∧
        (∀ t ∈ params, t.Fits text) ∧ Node.FitAll text body := by
  simp only [Fits, nodes, Addresses, List.forall_mem_cons, List.forall_mem_append,
    forall_nodesAll, Target.forall_nodesAll, Target.Fits, FitAll]

@[simp] theorem fits_closure {span : Span} {params : List Target} {body : List Node} :
    (Node.closure span params body).Fits text ↔
      (∀ t ∈ params, t.Fits text) ∧ Node.FitAll text body := by
  simp only [Fits, nodes, Addresses, DeclaresVariables, List.forall_mem_cons,
    List.forall_mem_append, forall_nodesAll, Target.forall_nodesAll, Target.Fits, FitAll, true_and]

@[simp] theorem fits_block {span : Span} {body : List Node} :
    (Node.block span body).Fits text ↔ Node.FitAll text body := by
  simp [Fits, FitAll, Addresses, DeclaresVariables, forall_nodesAll]

@[simp] theorem fits_handler {span : Span} {param : List Target} {body : List Node} :
    (Node.handler span param body).Fits text ↔
      (∀ t ∈ param, t.Fits text) ∧ Node.FitAll text body := by
  simp only [Fits, nodes, Addresses, DeclaresVariables, List.forall_mem_cons,
    List.forall_mem_append, forall_nodesAll, Target.forall_nodesAll, Target.Fits, FitAll, true_and]

@[simp] theorem fits_declaration {span : Span} {kind : DeclarationKind} {targets : List Target} :
    (Node.declaration span kind targets).Fits text ↔
      (kind = .var ∨ kind = .letBinding ∨ kind = .constBinding) ∧ ∀ t ∈ targets, t.Fits text := by
  simp only [Fits, nodes, Addresses, DeclaresVariables, List.forall_mem_cons,
    Target.forall_nodesAll, Target.Fits]

end Node

namespace Target

@[simp] theorem fits_name {id : Ident} {span : Span} {notes : List Node} :
    (Target.name id span notes).Fits text ↔ Node.FitAll text notes := by
  simp only [Fits, nodes, Node.forall_nodesAll, Node.FitAll, Node.Fits]

@[simp] theorem fits_object {span : Span} {fields : List Field} {notes : List Node} :
    (Target.object span fields notes).Fits text ↔
      (∀ f ∈ fields, f.Fits text) ∧ Node.FitAll text notes := by
  simp only [Fits, nodes, List.forall_mem_append, Field.forall_nodesAll, Node.forall_nodesAll,
    Field.Fits, Node.FitAll, Node.Fits]

@[simp] theorem fits_array {span : Span} {slots : List Slot} {notes : List Node} :
    (Target.array span slots notes).Fits text ↔
      (∀ s ∈ slots, s.Fits text) ∧ Node.FitAll text notes := by
  simp only [Fits, nodes, List.forall_mem_append, Slot.forall_nodesAll, Node.forall_nodesAll,
    Slot.Fits, Node.FitAll, Node.Fits]

@[simp] theorem fits_rest {span : Span} {target : Target} {notes : List Node} :
    (Target.rest span target notes).Fits text ↔
      target.Fits text ∧ Node.FitAll text notes := by
  simp only [Fits, nodes, List.forall_mem_append, Node.forall_nodesAll, Node.FitAll, Node.Fits]

@[simp] theorem fits_withDefault {target : Target} {value : Node} :
    (Target.withDefault target value).Fits text ↔ target.Fits text ∧ value.Fits text := by
  simp only [Fits, nodes, List.forall_mem_append, Node.Fits]

@[simp] theorem fits_undeclared {target : Target} :
    (Target.undeclared target).Fits text ↔ target.Fits text := by
  simp only [Fits, nodes]

end Target

namespace Field

@[simp] theorem fits_keyed {key : Option PropertyKey} {keyParts : List Node} {value : Target} :
    (Field.keyed key keyParts value).Fits text ↔
      Node.FitAll text keyParts ∧ value.Fits text := by
  simp only [Fits, nodes, List.forall_mem_append, Node.forall_nodesAll, Node.FitAll, Node.Fits,
    Target.Fits]

@[simp] theorem fits_shorthand {id : Ident} {default : Option Node} :
    (Field.shorthand id default).Fits text ↔ ∀ n ∈ default, n.Fits text := by
  cases default <;> simp [Fits, Node.Fits]

@[simp] theorem fits_rest {target : Target} : (Field.rest target).Fits text ↔ target.Fits text := by
  simp only [Fits, nodes, Target.Fits]

end Field

@[simp] theorem Slot.fits_hole : Slot.hole.Fits text := by simp [Fits, target?]

@[simp] theorem Slot.fits_item {target : Target} :
    (Slot.item target).Fits text ↔ target.Fits text := by
  simp [Fits, target?]

end Tree

end ParamLowering
