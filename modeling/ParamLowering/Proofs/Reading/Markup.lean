import ParamLowering.Grammar.Markup
import ParamLowering.Proofs.Reading.Type
set_option autoImplicit false

/-! Markup elements stand where they were read, the children of an element behind its tag. -/

namespace ParamLowering.Grammar

open ParamLowering.Tree Parse

variable {text : List Char} {lo : Nat} {g : Rules} {m : Mode}

theorem hyphenated_passes : Passes text hyphenated := by
  refine .of_begins fun c hc => begins_get ?_
  dsimp only
  split
  · refine .ite (fun _ => ?_) fun _ => .failure
    have hname : c.place.Leads ⟨c.place.rest.drop
          (c.place.rest.takeWhile fun c => isIdentifierPart c || c == '-').length,
        c.place.offset + Text.byteLength
          (c.place.rest.takeWhile fun c => isIdentifierPart c || c == '-')⟩ :=
      ⟨_, (List.prefix_iff_eq_append.1 (List.takeWhile_prefix _)).symm, rfl⟩
    exact (resume_runs (hc.place_in.trans hname)
      (Nat.le_trans hc.start_le_place hname.offset_le)).bind fun _ _ _ => .pure trivial
  · exact .failure

theorem elementName_reads :
    Reads text lo (elementName g) fun hi r => Node.StandAll text lo hi r.2 := by
  refine hyphenated_passes.bind fun id => (mark?_passes ":").bind fun _ =>
    .ite (fun _ => hyphenated_passes.bind fun _ => .pure .nil) fun _ => ?_
  refine (Passes.repeated ?_ g.bound).bind fun _ => .pure (.name .nil)
  exact (mark?_passes ".").seq fun _ => .ite (hyphenated_passes.seq fun _ => .pure _) (.pure _)

theorem quotedEnd_leads {quote : Char} (hquote : quote.utf8Size = 1) {cs : List Char}
    {offset : Nat} {q : Place} (h : quotedEnd quote cs offset = some q) :
    Place.Leads ⟨cs, offset⟩ q := by
  induction cs generalizing offset with
  | nil => cases h
  | cons c cs ih =>
    rw [quotedEnd] at h
    split at h
    · rename_i hc
      subst hc
      obtain rfl := Option.some.inj h
      exact hquote ▸ .cons c cs offset
    · exact (Place.Leads.cons c cs offset).trans (ih h)

theorem behindAngle_in {c : Cursor} {q : Place} (hc : c.At text lo) (h : behindAngle c = some q) :
    q.In text ∧ lo < q.offset := by
  unfold behindAngle at h
  split at h
  · rename_i hrest
    obtain rfl := Option.some.inj h
    exact hc.skip_char hrest (by decide)
  · cases h

section

variable (hg : g.Reads text)

include hg

theorem attributeValue_reads : Reads text lo (attributeValue g m) (Node.StandAll text lo) := by
  refine .of_begins fun c hc hlo => begins_get ?_
  dsimp only
  have hquoted : ∀ {quote : Char} {cs : List Char} {last : Place}, quote.utf8Size = 1 →
      c.place.rest = quote :: cs →
      quotedEnd (c.place.rest.headD '"') cs (c.place.offset + 1) = some last →
      Begins text c (do resume last; return []) (Node.StandAll text lo) := by
    intro quote cs last hquote hrest hlast
    rw [hrest, List.headD_cons] at hlast
    have hleads := (Place.Leads.of_cons hrest).trans (hquote ▸ quotedEnd_leads hquote hlast)
    have hle := Nat.le_trans hc.start_le_place hleads.offset_le
    exact (resume_runs (hc.place_in.trans hleads) hle).bind fun _ _ heq =>
      .pure (.mono .nil (Nat.le_refl _) (heq ▸ Nat.le_trans hlo hle))
  split
  · rename_i hrest
    split
    · exact hquoted (by decide) hrest ‹_›
    · exact .failure
  · rename_i hrest
    split
    · exact hquoted (by decide) hrest ‹_›
    · exact .failure
  · exact (skip_goes hc).bind fun _ _ hle => hg.expression.bind fun _ _ hn =>
      (mark_passes closeBrace).bind fun _ =>
        .pure (.single (hn.mono (Nat.le_trans hlo hle) (Nat.le_refl _)))
  · split
    · rename_i node last helement
      obtain ⟨hn, -, hlt, hlast⟩ := hg.element hc.place_in helement
      have hle := hc.start_le_place
      refine (resume_runs hlast (Nat.le_trans hle (Nat.le_of_lt hlt))).bind fun _ _ heq => ?_
      exact .pure (.single (heq ▸ hn.mono (Nat.le_trans hlo hle) (Nat.le_refl _)))
    · exact .failure

theorem attribute?_reads :
    Reads text lo (attribute? g m) fun hi o => ∀ ns ∈ o, Node.StandAll text lo hi ns := by
  refine (atMark_peeks ">").bind fun _ => (atMark_peeks "/").bind fun _ =>
    .ite (fun _ => .absent) fun _ => (mark?_passes openBrace).bind fun _ => .ite (fun _ => ?_)
      fun _ => token_peeks.bind fun _ => .ite (fun _ => .absent) fun _ => ?_
  · exact (mark_passes "...").bind fun _ => hg.assignment.bind fun _ _ ho =>
      (mark_passes closeBrace).bind fun _ => .pure (by simpa using Node.StandAll.single ho)
  · refine hyphenated_passes.bind fun _ => (mark?_passes ":").bind fun _ =>
      .optional hyphenated_passes ((mark?_passes "=").bind fun _ => ?_)
    exact .ite (fun _ => (attributeValue_reads hg).present) fun _ =>
      .pure (by simpa using Node.StandAll.nil)

theorem openingTag_reads :
    Reads text lo (openingTag g m) fun hi r => Node.StandAll text lo hi r.2 := by
  refine elementName_reads.bind fun _ named hmentioned =>
    .branch (typeArguments?_reads hg) (.pure .nil) fun _ types htypes =>
      (repeated_reads (fun _ => attribute?_reads hg) g.bound).bind fun _ attributes hattributes =>
        .pure ?_
  rw [List.append_assoc]
  exact hmentioned.append (htypes.prepend (.flatten hattributes))

omit hg in
theorem closingTag_in {c : Cursor} {name : String × List Node} {q : Place} (hc : c.At text lo)
    (h : closingTag g c = some (name, q)) : q.In text ∧ Node.StandAll text lo q.offset name.2 := by
  unfold closingTag at h
  split at h
  · obtain ⟨last, hlast, heq⟩ := Option.bind_eq_some_iff.1 h
    obtain ⟨rfl, rfl⟩ := Prod.mk.inj (Option.some.inj heq)
    obtain ⟨hin, hlt⟩ := behindAngle_in hc hlast
    exact ⟨hin, .mono .nil (Nat.le_refl _) (Nat.le_of_lt hlt)⟩
  · obtain ⟨⟨named, d⟩, hname, hrest⟩ := Option.bind_eq_some_iff.1 h
    obtain ⟨last, hlast, heq⟩ := Option.bind_eq_some_iff.1 hrest
    obtain ⟨rfl, rfl⟩ := Prod.mk.inj (Option.some.inj heq)
    obtain ⟨mid, -, hd, hstand⟩ := elementName_reads _ _ _ hc hname
    obtain ⟨hin, hlt⟩ := behindAngle_in hd hlast
    exact ⟨hin, hstand.mono (Nat.le_refl _) (Nat.le_of_lt hlt)⟩

/-- An expression in braces, behind three points or not. -/
theorem braced_in {c d : Cursor} {n : Node} (hc : c.At text lo)
    (h : g.expression m (if c.token.isMark "..." then c.next else c) = some (n, d))
    (hclose : d.token.isMark closeBrace = true) :
    (d.place.skip 1).In text ∧ n.Stands text lo (d.place.skip 1).offset := by
  have hstart : Cursor.At text lo (if c.token.isMark "..." then c.next else c) := by
    split
    · exact hc.next
    · exact hc
  obtain ⟨mid, -, hd, hn⟩ := hg.expression _ _ _ hstart h
  obtain ⟨hbehind, hle⟩ := hd.skip_mark hclose rfl
  exact ⟨hbehind, hn.mono (Nat.le_refl _) hle⟩

theorem children_in {name : String} {bound : Nat} {p q : Place} {ns : List Node}
    (hp : p.In text) (h : children g m name bound p = some (ns, q)) :
    q.In text ∧ Node.StandAll text p.offset q.offset ns := by
  induction bound generalizing p ns with
  | zero => cases h
  | succ bound ih =>
    rw [children] at h
    split at h
    · cases h
    · have hc : (Cursor.behind p).next.At text p.offset := (Cursor.At.behind hp (Nat.le_refl _)).next
      dsimp only at h
      split at h
      · obtain ⟨⟨⟨closing, nodes⟩, last⟩, hclosing, heq⟩ := Option.bind_eq_some_iff.1 h
        dsimp only at heq
        split at heq
        · obtain ⟨rfl, rfl⟩ := Prod.mk.inj (Option.some.inj heq)
          exact closingTag_in hc.next hclosing
        · cases heq
      · obtain ⟨⟨child, after⟩, hchild, hrest⟩ := Option.bind_eq_some_iff.1 h
        obtain ⟨⟨more, last⟩, hmore, heq⟩ := Option.bind_eq_some_iff.1 hrest
        obtain ⟨rfl, rfl⟩ := Prod.mk.inj (Option.some.inj heq)
        obtain ⟨hstands, -, -, hafter⟩ := hg.element hp hchild
        obtain ⟨hlast, hrest⟩ := ih hafter hmore
        exact ⟨hlast, .cons hstands hrest⟩
    · rename_i hrest
      have hskip := Place.Leads.skip_one hrest (by decide)
      have hc : (Cursor.behind (p.skip 1)).At text p.offset :=
        .behind (hp.trans hskip) hskip.offset_le
      dsimp only at h
      split at h
      · rename_i hclose
        obtain ⟨hbehind, hle⟩ := hc.skip_mark hclose rfl
        obtain ⟨hq, hrest⟩ := ih hbehind h
        exact ⟨hq, hrest.mono hle (Nat.le_refl _)⟩
      · obtain ⟨⟨node, d⟩, hnode, hrest⟩ := Option.bind_eq_some_iff.1 h
        dsimp only at hrest
        split at hrest
        · rename_i hclose
          obtain ⟨⟨more, last⟩, hmore, heq⟩ := Option.bind_eq_some_iff.1 hrest
          obtain ⟨rfl, rfl⟩ := Prod.mk.inj (Option.some.inj heq)
          obtain ⟨hbehind, hn⟩ := braced_in hg hc hnode hclose
          obtain ⟨hq, hrest⟩ := ih hbehind hmore
          exact ⟨hq, .cons hn hrest⟩
        · cases hrest
    · rename_i c cs _ _ hrest
      have hstep := Place.Leads.of_cons hrest
      obtain ⟨hq, hrest⟩ := ih (hp.trans hstep) h
      exact ⟨hq, hrest.mono hstep.offset_le (Nat.le_refl _)⟩

theorem markup_encloses {p q : Place} {n : Node} (hp : p.In text)
    (h : markup g m p = some (n, q)) : p.Encloses text q n := by
  obtain ⟨_, _, hrest⟩ := Option.bind_eq_some_iff.1 h
  have hinside : (Cursor.behind p).next.At text p.offset :=
    (Cursor.At.behind hp (Nat.le_refl _)).next
  have hencloses : ∀ {lo : Nat} {last : Place} {parts : List Node}, p.offset < lo ∨ lo < last.offset →
      last.In text → Node.StandAll text p.offset lo parts → lo ≤ last.offset →
      p.Encloses text last (.group ⟨p.offset, last.offset⟩ parts) := fun hlt hlast hparts hle =>
    ⟨(Node.stands_group hparts).mono (Nat.le_refl _) hle, rfl, by have := hparts.le; omega, hlast⟩
  dsimp only at hrest
  split at hrest
  · rename_i after hafter
    obtain ⟨⟨parts, last⟩, hchildren, heq⟩ := Option.bind_eq_some_iff.1 hrest
    obtain ⟨rfl, rfl⟩ := Prod.mk.inj (Option.some.inj heq)
    obtain ⟨hin, hlt⟩ := behindAngle_in hinside hafter
    obtain ⟨hlast, hparts⟩ := children_in hg hin hchildren
    exact hencloses (.inl (Nat.lt_of_lt_of_le hlt hparts.le)) hlast
      (hparts.mono (Nat.le_of_lt hlt) (Nat.le_refl _)) (Nat.le_refl _)
  · obtain ⟨⟨⟨name, parts⟩, c⟩, hopening, hrest⟩ := Option.bind_eq_some_iff.1 hrest
    obtain ⟨mid, -, hc, hparts⟩ := openingTag_reads hg _ _ _ hinside hopening
    dsimp only at hrest
    split at hrest
    · obtain ⟨last, hlast, heq⟩ := Option.bind_eq_some_iff.1 hrest
      obtain ⟨rfl, rfl⟩ := Prod.mk.inj (Option.some.inj heq)
      obtain ⟨hin, hlt⟩ := behindAngle_in hc.next hlast
      exact hencloses (.inr hlt) hin hparts (Nat.le_of_lt hlt)
    · obtain ⟨after, hafter, hrest⟩ := Option.bind_eq_some_iff.1 hrest
      obtain ⟨⟨more, last⟩, hchildren, heq⟩ := Option.bind_eq_some_iff.1 hrest
      obtain ⟨rfl, rfl⟩ := Prod.mk.inj (Option.some.inj heq)
      obtain ⟨hin, hlt⟩ := behindAngle_in hc hafter
      obtain ⟨hlast, hmore⟩ := children_in hg hin hchildren
      have hall := hparts.append (hmore.mono (Nat.le_of_lt hlt) (Nat.le_refl _))
      exact hencloses (.inl (Nat.lt_of_le_of_lt hparts.le (Nat.lt_of_lt_of_le hlt hmore.le))) hlast
        hall (Nat.le_refl _)

end

end ParamLowering.Grammar
