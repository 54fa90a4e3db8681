import ProjectFile.Proofs.Expression.Lists
import ProjectFile.Proofs.Expression.Parametric

/-!
How the nodes of a tree enclose one another.

A reference reaches from its opener to its `)`, and what is in it begins behind the opener: with a name,
a quote or a call (`Expr.Formed`). Readers keep this, as they keep a relation of trees that holds of
equal trees only (`congruence_formed`). So a reference is longer than what is in it, and as neither of
its ends is a blank, it is not cut when an item of a list is trimmed.

With what is known of the shape of trees, every node encloses the references under it, and all nodes
under it if it is no item of a list (`encloses_parse`). An item of a list is trimmed and its expression is
not, so that the expression may reach further than the item.
-/

namespace ProjectFile

/-! ## Characters of spans -/

/-- A character that stands in a span belongs to its text. -/
theorem Span.Covers.mem_of_start {s r : Span} {t w v : Text} {c : Char} (hs : s.Covers t w)
    (hr : r.Covers t (c :: v)) (hstart : s.start ≤ r.start) (hstop : r.start < s.stop) : c ∈ w := by
  obtain ⟨a, b, rfl, ha, hb⟩ := hs
  obtain ⟨a', b', htext, ha', -⟩ := hr
  rw [ha, ha'] at hstart
  rw [ha', hb] at hstop
  obtain ⟨m, rfl⟩ : ∃ m, a' = a ++ m := by
    rcases List.append_eq_append_iff.1 htext with ⟨m, rfl, -⟩ | ⟨m, rfl, -⟩
    · exact ⟨m, rfl⟩
    · rw [Text.width_append] at hstart
      have hm : m = [] := Text.width_eq_zero.1 (by omega)
      exact ⟨[], by rw [hm, List.append_nil, List.append_nil]⟩
  rw [List.append_assoc] at htext
  rw [Text.width_append] at hstop
  rcases List.append_eq_append_iff.1 (List.append_cancel_left htext) with ⟨k, rfl, -⟩ | ⟨k, rfl, hk⟩
  · rw [Text.width_append] at hstop
    omega
  · cases k with
    | nil =>
      rw [List.append_nil] at hstop
      omega
    | cons d k =>
      obtain ⟨rfl, -⟩ := List.cons.inj hk
      exact List.mem_append_right _ List.mem_cons_self

namespace Expression

/-! ## Formed nodes -/

/-- Whether a node is made of tokens of a text as readers make it: it is no item of a list, and if it is
a reference then from its opener to its `)`, with nodes in it that begin with no opener. -/
structure Expr.Formed (t : Text) (n : Expr) : Prop where
  segment_eq : SimpleList.segmentOf n = n.span
  ends : n.isReference = true → ∃ o ∈ tokens t, ∃ c ∈ tokens t,
    o.kind.beginsReference = true ∧ c.kind = .rightParen ∧ n.span = ⟨o.start, c.span.stop⟩
  begins : n.isReference = true → ∀ c ∈ n.children, ∃ u ∈ tokens t,
    u.kind.opens = false ∧ c.span.start = u.start

/-- Whether all nodes of a tree are formed. -/
def Expr.AllFormed (t : Text) (e : Expr) : Prop := ∀ n ∈ e.descendants, n.Formed t

/-- Whether two are one of which something is so. -/
def Same {α : Type} (P : α → Prop) (a b : α) : Prop := a = b ∧ P a

theorem forall₂_same_iff {α : Type} {P : α → Prop} {as bs : List α} :
    List.Forall₂ (Same P) as bs ↔ as = bs ∧ ∀ a ∈ as, P a := by
  constructor
  · intro h
    induction h with
    | nil => exact ⟨rfl, List.forall_mem_nil _⟩
    | cons hfirst _ ih => exact ⟨by rw [hfirst.1, ih.1], List.forall_mem_cons.2 ⟨hfirst.2, ih.2⟩⟩
  · rintro ⟨rfl, h⟩
    exact List.forall₂_same.2 fun a ha => ⟨rfl, h a ha⟩

theorem eq_of_rel_same {α : Type} {P : α → Prop} {a b : Option α} (h : Option.Rel (Same P) a b) :
    a = b ∧ ∀ x ∈ a, P x := by
  cases h with
  | none => exact ⟨rfl, nofun⟩
  | some h =>
    refine ⟨by rw [h.1], ?_⟩
    rintro x ⟨⟩
    exact h.2

section

variable {t : Text}

namespace Expr

theorem Formed.of_not_isReference {n : Expr} (hsegment : SimpleList.segmentOf n = n.span)
    (h : n.isReference = false) : n.Formed t :=
  ⟨hsegment, fun href => absurd (h.symm.trans href) nofun,
    fun href => absurd (h.symm.trans href) nofun⟩

theorem allFormed_iff {e : Expr} :
    e.AllFormed t ↔ e.Formed t ∧ ∀ c ∈ e.children, c.AllFormed t := forall_descendants_iff

theorem allFormed_literal (s : Span) (value : Text) : (literal s value).AllFormed t :=
  allFormed_iff.2 ⟨.of_not_isReference rfl rfl, nofun⟩

theorem allFormed_symbol (s : Symbol) : (symbol s).AllFormed t :=
  allFormed_iff.2 ⟨.of_not_isReference rfl rfl, nofun⟩

theorem allFormed_of_mem_ofSymbol? {s : Option Symbol} {c : Expr} (h : c ∈ ofSymbol? s) :
    c.AllFormed t := by
  obtain ⟨n, -, rfl⟩ := Option.map_eq_some_iff.1 (Option.mem_toList.1 h)
  exact allFormed_symbol n

end Expr

/-- Tokens of a text, each related to itself. -/
abbrev Token.Of (t : Text) : Token → Token → Prop := Same (· ∈ tokens t)

theorem Names.exists_start {n n' : Symbol} (h : Names (Token.Of t) n n') :
    ∃ u ∈ tokens t, u.kind.opens = false ∧ n.span.start = u.start := by
  obtain ⟨h, hkind⟩ := h
  exact ⟨_, h.2, by rw [hkind]; rfl, rfl⟩

theorem exists_start_of_mem_ofSymbol? {n n' : Option Symbol}
    (h : Option.Rel (Names (Token.Of t)) n n') {c : Expr} (hc : c ∈ Expr.ofSymbol? n) :
    ∃ u ∈ tokens t, u.kind.opens = false ∧ c.span.start = u.start := by
  cases h with
  | none => cases hc
  | some h =>
    rw [List.mem_singleton.1 hc]
    exact h.exists_start

theorem Names.eq {n n' : Symbol} (h : Names (Token.Of t) n n') : n = n' := by
  obtain ⟨⟨rfl, -⟩, -⟩ := h
  rfl

theorem eq_of_rel_names {n n' : Option Symbol} (h : Option.Rel (Names (Token.Of t)) n n') : n = n' := by
  cases h with
  | none => rfl
  | some h => rw [h.eq]

theorem Spans.eq {first last : TokenKind} {s s' : Span} (h : Spans (Token.Of t) first last s s') :
    s = s' := by
  obtain ⟨⟨rfl, -⟩, -, ⟨rfl, -⟩, -⟩ := h
  rfl

theorem Spans.exists_ends {first : TokenKind} (hfirst : first.beginsReference = true) {s s' : Span}
    (h : Spans (Token.Of t) first .rightParen s s') : ∃ o ∈ tokens t, ∃ c ∈ tokens t,
      o.kind.beginsReference = true ∧ c.kind = .rightParen ∧ s = ⟨o.start, c.span.stop⟩ := by
  obtain ⟨hopen, hkind, hclose, hlast⟩ := h
  exact ⟨_, hopen.2, _, hclose.2, by rw [hkind]; exact hfirst, hlast, rfl⟩

theorem BeginsPlain.exists_start {e : Expr} (h : BeginsPlain (Token.Of t) e) :
    ∃ u ∈ tokens t, u.kind.opens = false ∧ e.span.start = u.start := by
  obtain ⟨h, hkind, hstart⟩ := h
  exact ⟨_, h.2, hkind, hstart⟩

/-- A node that is no reference is formed if its children are. -/
theorem same_of_children {n n' : Expr} (heq : n = n') (href : n.isReference = false)
    (hsegment : SimpleList.segmentOf n = n.span) (h : ∀ c ∈ n.children, c.AllFormed t) :
    Same (Expr.AllFormed t) n n' :=
  ⟨heq, Expr.allFormed_iff.2 ⟨.of_not_isReference hsegment href, h⟩⟩

theorem forall_mem_prependText {u : Token} {ps : List Expr} (h : ∀ p ∈ ps, p.AllFormed t) :
    ∀ p ∈ prependText u ps, p.AllFormed t := by
  unfold prependText
  split
  · exact List.forall_mem_cons.2 ⟨Expr.allFormed_literal _ _, (List.forall_mem_cons.1 h).2⟩
  · exact List.forall_mem_cons.2 ⟨Expr.allFormed_literal _ _, h⟩

theorem forall_mem_pair {e e' : Expr} (h : e.AllFormed t) (h' : e'.AllFormed t) :
    ∀ c ∈ [e, e'], c.AllFormed t :=
  List.forall_mem_cons.2 ⟨h, List.forall_mem_singleton.2 h'⟩

/-- **Readers form all nodes.** -/
theorem congruence_formed (t : Text) : Congruence (Token.Of t) (Same (Expr.AllFormed t)) where
  kind h := by rw [h.1]
  text h := by rw [h.1]
  plain hfirst hparts := by
    rw [forall₂_same_iff] at hparts ⊢
    exact ⟨by rw [hfirst.1, hparts.1], forall_mem_prependText hparts.2⟩
  property isFunction hspan hname := by
    refine ⟨by rw [hspan.eq, eq_of_rel_names hname], Expr.allFormed_iff.2 ⟨⟨rfl, ?_, ?_⟩, ?_⟩⟩
    · exact fun _ => hspan.exists_ends rfl
    · exact fun _ c hc => exists_start_of_mem_ofSymbol? hname hc
    · exact fun c hc => Expr.allFormed_of_mem_ofSymbol? hc
  items hspan hname htransform hseparator := by
    obtain ⟨htransform', hformed⟩ := eq_of_rel_same htransform.related
    obtain ⟨hseparator', hformed'⟩ := eq_of_rel_same hseparator.related
    refine ⟨by rw [hspan.eq, eq_of_rel_names hname, htransform', hseparator'],
      Expr.allFormed_iff.2 ⟨⟨rfl, fun _ => hspan.exists_ends rfl, fun _ c hc => ?_⟩, fun c hc => ?_⟩⟩
    · rcases List.mem_append.1 hc with hc | hc
      · exact exists_start_of_mem_ofSymbol? hname hc
      · rcases List.mem_append.1 hc with hc | hc
        · exact (htransform.plain c (Option.mem_toList.1 hc)).exists_start
        · exact (hseparator.plain c (Option.mem_toList.1 hc)).exists_start
    · rcases List.mem_append.1 hc with hc | hc
      · exact Expr.allFormed_of_mem_ofSymbol? hc
      · rcases List.mem_append.1 hc with hc | hc
        · exact hformed c (Option.mem_toList.1 hc)
        · exact hformed' c (Option.mem_toList.1 hc)
  metadata hspan htype hname := by
    refine ⟨by rw [hspan.eq, eq_of_rel_names htype, eq_of_rel_names hname],
      Expr.allFormed_iff.2 ⟨⟨rfl, fun _ => hspan.exists_ends rfl, fun _ c hc => ?_⟩, fun c hc => ?_⟩⟩
    · exact (List.mem_append.1 hc).elim (exists_start_of_mem_ofSymbol? htype)
        (exists_start_of_mem_ofSymbol? hname)
    · exact (List.mem_append.1 hc).elim Expr.allFormed_of_mem_ofSymbol?
        Expr.allFormed_of_mem_ofSymbol?
  quoted hopen hclose hparts := by
    obtain ⟨rfl, hformed⟩ := forall₂_same_iff.1 hparts
    exact same_of_children (by rw [hopen.1, hclose.1]) rfl rfl hformed
  call hspan hname harguments := by
    obtain ⟨rfl, hformed⟩ := forall₂_same_iff.1 harguments
    exact same_of_children (by rw [hspan.eq, hname.eq]) rfl rfl
      (List.forall_mem_cons.2 ⟨Expr.allFormed_symbol _, hformed⟩)
  group hspan hinner :=
    same_of_children (by rw [hspan.eq, hinner.1]) rfl rfl (List.forall_mem_singleton.2 hinner.2)
  concat hp hq hps := by
    obtain ⟨hparts, hformed⟩ := forall₂_same_iff.1 (.cons hp (.cons hq hps))
    exact same_of_children (by rw [hparts]; rfl) rfl rfl hformed
  compare op hleft hright :=
    same_of_children (by rw [hleft.1, hright.1]) rfl rfl (forall_mem_pair hleft.2 hright.2)
  negation hfirst he :=
    same_of_children (by rw [hfirst.1, he.1]) rfl rfl (List.forall_mem_singleton.2 he.2)
  junction op hleft hright :=
    same_of_children (by rw [hleft.1, hright.1]) rfl rfl (forall_mem_pair hleft.2 hright.2)

theorem forall₂_tokenOf {ts : List Token} (h : ∀ u ∈ ts, u ∈ tokens t) :
    List.Forall₂ (Token.Of t) ts ts :=
  List.forall₂_same.2 fun u hu => ⟨rfl, h u hu⟩

theorem allFormed_readCondition {stop : Nat} {ts : List Token} (h : ∀ u ∈ ts, u ∈ tokens t) {e : Expr}
    (he : readCondition stop ts = .ok e) : e.AllFormed t := by
  have hrelated := related_readCondition (congruence_formed t) (forall₂_tokenOf h) stop stop
  rw [he] at hrelated
  exact hrelated.2

theorem allFormed_read {s : Segment} (h : s.Stands t) {e : Expr} (he : s.read = .ok e) :
    e.AllFormed t := by
  have hrelated := Segment.related_read (congruence_formed t) (forall₂_tokenOf h.mem)
    ⟨rfl, Expr.allFormed_literal s.span []⟩
  rw [he] at hrelated
  exact hrelated.2

/-! ## Enclosing nodes -/

namespace Expr

/-- Whether a node encloses all nodes under it. -/
def Holds (e : Expr) : Prop := ∀ d ∈ e.descendants, d.span.Within e.span

/-- Whether a node encloses what it should: all nodes under it, unless it is an item of a list, and all
references in any case, which are longer than what is in them. -/
structure Encloses (n : Expr) : Prop where
  le : n.span.start ≤ n.span.stop
  ordered : n.children.Pairwise fun a b => a.span.stop ≤ b.span.start
  holds : n.Holds ∨ ∃ range segment value e, n = .listItem range segment value e ∧ e.Holds
  references : ∀ r ∈ n.descendants, r.isReference = true → r.span.Within n.span
  inner : n.isReference = true → ∀ d ∈ n.children.flatMap descendants, n.span.start < d.span.start

variable {e : Expr}

theorem holds_of_formed (hshaped : e.WellShaped t) (hformed : e.AllFormed t) : e.Holds := by
  induction e using children_induction with
  | step e ih =>
    obtain ⟨hnode, hchildren⟩ := wellShaped_iff.1 hshaped
    obtain ⟨hself, hchildren'⟩ := allFormed_iff.1 hformed
    refine forall_descendants_iff.2 ⟨Span.Within.refl _, fun c hc d hd => ?_⟩
    have hinside := hnode.inside c hc
    rw [hself.segment_eq] at hinside
    exact (ih c hc (hchildren c hc) (hchildren' c hc) d hd).trans hinside

/-- What is in a reference begins behind its opener, as no other token starts there. -/
theorem lt_start_of_formed (hshaped : e.WellShaped t) (hformed : e.AllFormed t)
    (href : e.isReference = true) : ∀ d ∈ e.children.flatMap descendants, e.span.start < d.span.start := by
  intro d hd
  obtain ⟨c, hc, hd⟩ := List.mem_flatMap.1 hd
  obtain ⟨hnode, hchildren⟩ := wellShaped_iff.1 hshaped
  obtain ⟨hself, hchildren'⟩ := allFormed_iff.1 hformed
  obtain ⟨o, ho, c', hc', hopens, -, hspan⟩ := hself.ends href
  obtain ⟨u, hu, hplain, hstart⟩ := hself.begins href c hc
  have hinside := (hnode.inside c hc).1
  have hwithin := (holds_of_formed (hchildren c hc) (hchildren' c hc) d hd).1
  have hne : o.start ≠ u.start := by
    intro heq
    rw [eq_of_start_eq ho hu heq] at hopens
    revert hopens hplain
    cases u.kind <;> nofun
  rw [hself.segment_eq, hspan] at hinside
  rw [hspan]
  dsimp only at hinside ⊢
  omega

/-- **All nodes of a tree that is made of formed nodes enclose what they should.** -/
theorem encloses_of_formed (hshaped : e.WellShaped t) (hformed : e.AllFormed t) :
    ∀ n ∈ e.descendants, n.Encloses := by
  induction e using children_induction with
  | step e ih =>
    have hholds := holds_of_formed hshaped hformed
    obtain ⟨hnode, hchildren⟩ := wellShaped_iff.1 hshaped
    obtain ⟨-, hchildren'⟩ := allFormed_iff.1 hformed
    refine forall_descendants_iff.2 ⟨⟨hshaped.le, hnode.ordered, .inl hholds, ?_, ?_⟩, ?_⟩
    · exact fun r hr _ => hholds r hr
    · exact lt_start_of_formed hshaped hformed
    · exact fun c hc => ih c hc (hchildren c hc) (hchildren' c hc)

end Expr

/-! ## Items of lists -/

theorem exists_sign_of_beginsReference {k : TokenKind} (h : k.beginsReference = true) :
    ∃ d ds, k.sign? = some (d :: ds) ∧ Text.isBlank d = false := by
  cases k <;> first | exact ⟨_, _, rfl, by decide⟩ | cases h

/-- Neither end of a reference is a blank, so it is not cut when the segment around it is trimmed. -/
theorem Segment.within_trimmedSpan {s : Segment} (h : s.Stands t) {r : Expr} (hr : r.Formed t)
    (href : r.isReference = true) (hin : r.span.Within s.span) : r.span.Within s.trimmedSpan := by
  obtain ⟨o, ho, c, hc, hopens, hclose, hspan⟩ := hr.ends href
  obtain ⟨⟨w, hleading, hbefore⟩, ⟨w', htrailing, hbehind⟩, -⟩ := trims_trimmedSpan h
  have hopening := (stand_tokens t).covers_of_mem ho
  have hclosing := (stand_tokens t).covers_of_mem hc
  obtain ⟨d, ds, hsign, hd⟩ := exists_sign_of_beginsReference hopens
  have htext : c.text = [')'] := text_of_sign? hc (by rw [hclose]; rfl)
  have hstop : c.span.stop = c.span.start + 1 := by
    rw [Token.span, htext]
    rfl
  rw [text_of_sign? ho hsign] at hopening
  rw [htext] at hclosing
  rw [hspan, hstop] at hin ⊢
  refine ⟨Nat.le_of_not_lt fun hlt => ?_, Nat.le_of_not_lt fun hlt => ?_⟩
  · have hmem := hleading.mem_of_start hopening hin.1 hlt
    exact absurd (hbefore d hmem) (by rw [hd]; exact Bool.false_ne_true)
  · have hmem := htrailing.mem_of_start hclosing (Nat.le_of_lt_succ hlt) hin.2
    exact absurd (hbehind ')' hmem) (by decide)

/-- So the item of a segment encloses the references in it, though it is trimmed. -/
theorem Segment.encloses_item {s : Segment} (h : s.Stands t) {e : Expr}
    (he : Expr.Between t s.span.start [e] s.span.stop) (hformed : e.AllFormed t) :
    ∀ n ∈ (s.item e).descendants, n.Encloses := by
  obtain ⟨hshaped, -⟩ := (between_item h he).forall_mem _ (List.mem_singleton_self _)
  rw [item] at hshaped ⊢
  split at hshaped
  · next hempty =>
    rw [if_pos hempty]
    exact Expr.encloses_of_formed hshaped
      (Expr.allFormed_iff.2 ⟨.of_not_isReference rfl rfl, List.forall_mem_nil _⟩)
  · next hfull =>
    obtain ⟨hself, hstart, hstop⟩ := he
    have hholds := Expr.holds_of_formed hself hformed
    rw [if_neg hfull]
    refine Expr.forall_descendants_iff.2 ⟨⟨hshaped.le, List.pairwise_singleton _ _,
      .inr ⟨_, _, _, _, rfl, hholds⟩, fun r hr href => ?_,
      fun href => absurd href Bool.false_ne_true⟩, ?_⟩
    · rcases List.mem_cons.1 hr with rfl | hr
      · cases href
      · exact within_trimmedSpan h (hformed r hr) href ((hholds r hr).trans ⟨hstart, hstop⟩)
    · exact List.forall_mem_singleton.2 (Expr.encloses_of_formed hself hformed)

/-! ## Whole texts -/

theorem allFormed_expression {s : Segment} (h : s.Stands t) : s.expression.AllFormed t := by
  unfold Segment.expression
  split
  · next e he => exact allFormed_read h he
  · exact Expr.allFormed_literal _ _

theorem between_expression {s : Segment} (h : s.Stands t) :
    Expr.Between t s.span.start [s.expression] s.span.stop := by
  have hread := outcome_read h
  unfold Segment.expression
  split
  · next e he =>
    rw [he] at hread
    exact hread
  · obtain ⟨hcovers, hstart, hstop⟩ := Segment.covers_trimmedSpan h
    exact ⟨Expr.wellShaped_literal hcovers, hstart, hstop⟩

/-- The list of a text holds all that is in it, as a whole text does. -/
theorem encloses_list (t : Text) : (parseList t).toExpr.Holds ∧
    ∀ n ∈ (parseList t).toExpr.descendants, n.Encloses := by
  have hshaped := (wellShaped_parse t).2.2
  have hholds : (parseList t).toExpr.Holds := by
    intro d hd
    exact ⟨Nat.zero_le _, (hshaped d hd).cuts.isBoundary.2.1⟩
  refine ⟨hholds, Expr.forall_descendants_iff.2 ⟨⟨hshaped.le, (Expr.wellShaped_iff.1 hshaped).1.ordered,
    .inl hholds, fun r hr _ => hholds r hr, nofun⟩, fun item hitem => ?_⟩⟩
  have hitem : item ∈ (parseList t).items := hitem
  rw [items_parseList] at hitem
  obtain ⟨s, hs, rfl⟩ := List.mem_map.1 hitem
  have hstands := (line_segments t).stands s hs
  exact s.encloses_item hstands (between_expression hstands) (allFormed_expression hstands)

/-- **What a text is read as holds all that is in it, and all its nodes enclose what they should.** -/
theorem encloses_parse {e : Expr} (h : parseValue t = .ok e ∨ parseCondition t = .ok e) :
    e.Holds ∧ ∀ n ∈ e.descendants, n.Encloses := by
  have hshape := wellShaped_parse t
  have hformed (hshaped : e.WellShaped t) (hformed : e.AllFormed t) :
      e.Holds ∧ ∀ n ∈ e.descendants, n.Encloses :=
    ⟨Expr.holds_of_formed hshaped hformed, Expr.encloses_of_formed hshaped hformed⟩
  rcases h with he | he
  · rw [he] at hshape
    rw [parseValue] at he
    split at he
    · next s hs =>
      have hstands := (line_segments t).stands s (hs ▸ List.mem_singleton_self s)
      exact hformed hshape.1 (allFormed_read hstands he)
    · cases hread : readItemsOf (segments t) with
      | error problem =>
        rw [hread] at he
        cases he
      | ok items =>
        rw [hread] at he
        cases he
        rw [eq_toExpr_of_readItemsOf hread]
        exact encloses_list t
  · rw [he] at hshape
    refine hformed hshape.2.1 ?_
    rw [parseCondition] at he
    split at he
    · cases he
      exact Expr.allFormed_literal _ _
    · exact allFormed_readCondition (fun u hu => hu) he

end

end Expression

end ProjectFile
