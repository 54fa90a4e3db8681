import ProjectFile.Proofs.Markup.Covered
import ProjectFile.Proofs.Markup.Laminar
import ProjectFile.Proofs.Markup.Locality
import ProjectFile.Proofs.Markup.Runs

/-!
How far the items of a view extend.

The items start one behind the other, and each lies behind those before it or inside them
(`Document.stack_views`): an element starts before all that is in it, and what stands side by side does
not overlap.

Every piece of a text ends with a `>`, or where the text ends or a `<` follows (`Piece.ends_ofText`). An
element and a run are made of pieces, so they end there too (`Document.isMade_views`): wherever an element
that is not closed or a tag that is not terminated is taken to end, that is not in the middle of a
terminator of a line.
-/

namespace ProjectFile.Markup

/-! ## Where pieces end -/

/-- Whether a part of a text ends with a `>`, or where the text ends or a `<` follows. -/
def EndsAtAngle (part behind : Text) : Prop :=
  part.getLast? = some '>' ∨ ∀ c ∈ behind.head?, c = '<'

/-- What is in front of a part does not matter. -/
theorem EndsAtAngle.append_left {part behind : Text} (h : EndsAtAngle part behind) (before : Text) :
    EndsAtAngle (before ++ part) behind := by
  refine h.imp_left fun hlast => ?_
  rw [List.getLast?_append, hlast]
  rfl

namespace TagToken

/-- The token that ends a tag ends with a `>`. -/
theorem getLast?_of_isLast {token : TagToken} (h : token.isLast = true) :
    token.text.getLast? = some '>' := by
  cases token with
  | rightAngle => rfl
  | slashRightAngle => rfl
  | _ => cases h

/-- The tokens of a tag go up to the `>` that ends it, or up to a `<` or the end of the text. -/
theorem ends_readAll (t : Text) : ∀ after, (readAll 0 t).flatMap text ++ after = t →
    EndsAtAngle ((readAll 0 t).flatMap text) after := by
  induction hlen : t.length using Nat.strongRecOn generalizing t with
  | ind n ih =>
    intro after hafter
    cases t with
    | nil => exact .inr (by simp [readAll] at hafter; simp [hafter])
    | cons c rest =>
      by_cases hc : c = '<'
      · rw [readAll, if_pos hc, List.flatMap_nil, List.nil_append] at hafter
        exact .inr (by simp [hafter, hc])
      · obtain ⟨behind, hbehind⟩ := text_read_prefix c rest
        have hpos := List.length_pos_iff.2 (text_read_ne_nil c rest)
        have hshort : behind.length < n := by
          rw [← hlen, ← hbehind, List.length_append]
          omega
        rw [readAll_cons hc hbehind.symm] at hafter ⊢
        split at hafter
        · next hlast =>
          rw [if_pos hlast, List.flatMap_singleton]
          exact .inl (getLast?_of_isLast hlast)
        · next hlast =>
          rw [if_neg hlast, List.flatMap_cons]
          rw [List.flatMap_cons, ← hbehind, List.append_assoc] at hafter
          exact (ih _ hshort behind rfl after (List.append_cancel_left hafter)).append_left _

end TagToken

namespace Piece

/-- A run ends with its terminator, or goes on to the end of the text. -/
theorem ends_readRun {kind : RunKind} {n : Nat} {stop t after : Text}
    (hstop : stop.getLast? = some '>') (h : (readRun kind n stop t).text ++ after = t) :
    EndsAtAngle (readRun kind n stop t).text after := by
  by_cases hafter : after = []
  · exact .inr (by simp [hafter])
  · have hne : stop ≠ [] := fun hnil => by simp [hnil] at hstop
    generalize hword : (readRun kind n stop t).text = word at h ⊢
    subst h
    obtain ⟨-, hsuffix, -⟩ := readRun_stops hne hafter hword
    obtain ⟨front, rfl⟩ := hsuffix.trans (List.drop_suffix n word)
    exact .inl (by rw [List.getLast?_append, hstop]; rfl)

/-- A tag ends with its `>`, or where the tokens after its opener end. -/
theorem ends_readTag {opener t after : Text}
    (h : opener ++ (TagToken.readAll 0 t).flatMap TagToken.text ++ after = opener ++ t) :
    EndsAtAngle (opener ++ (TagToken.readAll 0 t).flatMap TagToken.text) after := by
  rw [List.append_assoc] at h
  exact (TagToken.ends_readAll t after (List.append_cancel_left h)).append_left opener

theorem ends_readStart {n : Nat} {t after : Text} (h : (readStart n t).1.text ++ after = t) :
    EndsAtAngle (readStart n t).1.text after := by
  have htext : (readStart n t).1.text =
      t.take n ++ (TagToken.readAll 0 (t.drop n)).flatMap TagToken.text :=
    StartTag.text_ofTokens _ (TagToken.pairwise_isLast_readAll _)
  rw [htext] at h ⊢
  exact ends_readTag (h.trans (List.take_append_drop n t).symm)

theorem ends_readStop {t after : Text} (ht : EndTag.opener <+: t)
    (h : (readStop t).1.text ++ after = t) : EndsAtAngle (readStop t).1.text after := by
  obtain ⟨rest, rfl⟩ := ht
  have htext : (readStop (EndTag.opener ++ rest)).1.text =
      EndTag.opener ++ (TagToken.readAll 0 rest).flatMap TagToken.text :=
    EndTag.text_ofTokens (TagToken.pairwise_isLast_readAll _)
  rw [htext] at h ⊢
  exact ends_readTag h

theorem ends_readMarkup (mode : Mode) (t after : Text) :
    (readMarkup mode t).1.text ++ after = t → EndsAtAngle (readMarkup mode t).1.text after := by
  unfold readMarkup
  split
  · next hopener => exact ends_readStop (List.isPrefixOf_iff_prefix.1 hopener)
  split
  · exact ends_readStart
  split
  · exact ends_readRun rfl
  split
  · exact ends_readRun rfl
  split
  · exact ends_readRun rfl
  split
  · exact ends_readStart
  split
  · exact ends_readRun rfl
  · exact ends_readStart

theorem ends_readNext {mode : Mode} {c : Char} {rest after : Text}
    (h : (readNext mode c rest).1.text ++ after = c :: rest) :
    EndsAtAngle (readNext mode c rest).1.text after := by
  by_cases hc : c = '<'
  · rw [readNext, if_pos hc] at h ⊢
    exact ends_readMarkup mode _ after h
  · have hdata : (readNext mode c rest).1.isData = true := by
      rw [readNext, if_neg hc, readData]
      dsimp only [isData]
      split <;> rfl
    exact .inr (head?_behind_data hdata h)

/-- The pieces of a text in front of others end with a `>`, or where the text ends or a `<` follows. -/
theorem ends_readAll (t : Text) (mode : Mode) {ps qs : List Piece} (hps : ps ≠ [])
    (h : readAll mode 0 t = ps ++ qs) : EndsAtAngle (ps.flatMap text) (qs.flatMap text) := by
  induction hlen : t.length using Nat.strongRecOn generalizing mode t ps with
  | ind n ih =>
    cases t with
    | nil => exact absurd (List.append_eq_nil_iff.1 h.symm).1 hps
    | cons c rest =>
      obtain ⟨⟨after, hafter⟩, hsolid⟩ := isFront_readNext mode c rest
      have hpos := List.length_pos_iff.2 (text_ne_nil hsolid)
      have hshort : after.length < n := by
        rw [← hlen, ← hafter, List.length_append]
        omega
      obtain ⟨p, ps, rfl⟩ := List.exists_cons_of_ne_nil hps
      rw [readAll_cons mode hafter.symm, List.cons_append, List.cons.injEq] at h
      obtain ⟨rfl, hrest⟩ := h
      rw [List.flatMap_cons]
      by_cases hnil : ps = []
      · subst hnil
        rw [List.nil_append] at hrest
        rw [List.flatMap_nil, List.append_nil, ← hrest, (readAll_spec _ after).1]
        exact ends_readNext hafter
      · exact (ih after.length hshort after _ hnil hrest rfl).append_left _

/-- Whether some pieces stand among those of a text, from an offset on. -/
def StandAt (t : Text) (offset : Nat) (ps : List Piece) : Prop :=
  ∃ front back, ofText t = front ++ (ps ++ back) ∧ Text.width (front.flatMap text) = offset

namespace StandAt

variable {t : Text} {offset : Nat} {ps qs : List Piece}

theorem left (h : StandAt t offset (ps ++ qs)) : StandAt t offset ps := by
  obtain ⟨front, back, hsplit, hwidth⟩ := h
  exact ⟨front, qs ++ back, by rw [hsplit, List.append_assoc], hwidth⟩

theorem right (h : StandAt t offset (ps ++ qs)) :
    StandAt t (offset + Text.width (ps.flatMap text)) qs := by
  obtain ⟨front, back, hsplit, hwidth⟩ := h
  refine ⟨front ++ ps, back, by rw [hsplit, List.append_assoc, List.append_assoc], ?_⟩
  rw [List.flatMap_append, Text.width_append, hwidth]

/-- The text of pieces that stand in a text stands there, and ends where a piece does. -/
theorem exists_ends (h : StandAt t offset ps) (hps : ps ≠ []) : ∃ before behind,
    t = before ++ (ps.flatMap text ++ behind) ∧ before.width = offset ∧
      EndsAtAngle (ps.flatMap text) behind := by
  obtain ⟨front, back, hsplit, hwidth⟩ := h
  have htext := flatMap_text_ofText t
  rw [hsplit, List.flatMap_append, List.flatMap_append] at htext
  refine ⟨front.flatMap text, back.flatMap text, htext.symm, hwidth, ?_⟩
  have hne : ps.flatMap text ≠ [] := by
    obtain ⟨p, rest, rfl⟩ := List.exists_cons_of_ne_nil hps
    have hsolid := solid_ofText t p (by rw [hsplit]; simp)
    rw [List.flatMap_cons]
    exact List.append_ne_nil_of_left_ne_nil (text_ne_nil hsolid) _
  rw [← List.append_assoc] at hsplit
  have hends := ends_readAll t .content (List.append_ne_nil_of_right_ne_nil front hps) hsplit
  rw [List.flatMap_append] at hends
  refine hends.imp_left fun hlast => ?_
  rwa [List.getLast?_append_of_ne_nil _ hne] at hlast

end StandAt

end Piece

/-! ## What items are made of -/

/-- The text of an item. -/
def Item.source : Item → Text
  | .element e => e.node.text
  | .attribute a => a.attr.text
  | .content _ _ t => t

/-- Whether an item is made of whole pieces of a text that stand at its start. An attribute is only a
part of one. -/
def Item.IsMade (t : Text) : Item → Prop
  | .element e => Piece.StandAt t e.start e.node.pieces
  | .attribute _ => True
  | .content _ start w => ∃ kind, Piece.StandAt t start [.run kind w]

/-- An item is as wide as its text. -/
theorem Item.stop_span (i : Item) : i.span.stop = i.span.start + i.source.width := by
  match i with
  | .element e => exact congrArg (e.start + ·) (Node.width_eq e.node)
  | .attribute a => rfl
  | .content kind start t => rfl

/-- An element or a run ends where a piece does. -/
theorem Item.IsMade.exists_ends {t : Text} {i : Item} (h : i.IsMade t) (hi : i.attribute? = none) :
    ∃ before behind, t = before ++ (i.source ++ behind) ∧ before.width = i.span.start ∧
      EndsAtAngle i.source behind := by
  match i with
  | .element e =>
    have hends := Piece.StandAt.exists_ends h e.node.pieces_ne_nil
    rwa [← Node.text_eq] at hends
  | .attribute a => cases hi
  | .content kind start w =>
    obtain ⟨run, hrun⟩ := h
    have hends := hrun.exists_ends (List.cons_ne_nil _ _)
    rwa [List.flatMap_singleton] at hends

theorem TagItem.isMade_viewsOfAll (t : Text) (enclosing : List Enclosure) (before : List Item)
    (offset : Nat) (items : List TagItem) :
    ∀ v ∈ viewsOfAll enclosing before offset items, v.item.IsMade t := by
  induction items generalizing before offset with
  | nil => exact List.forall_mem_nil _
  | cons i items ih =>
    match i with
    | .attribute a => exact List.forall_mem_cons.2 ⟨trivial, ih _ _⟩
    | .filler f => exact ih _ _

namespace Node

variable {t : Text}

mutual

theorem isMade_views (enclosing : List Enclosure) (before after : List Item) (offset : Nat) :
    ∀ n : Node, Piece.StandAt t offset n.pieces →
      ∀ v ∈ n.views enclosing before after offset, v.item.IsMade t
  | .element tag content endTag => by
    intro h
    have hinside : Piece.StandAt t (offset + tag.text.width) (piecesOfAll content) := by
      have hrest : Piece.StandAt t (offset + Text.width ([Piece.start tag].flatMap Piece.text)) _ :=
        Piece.StandAt.right h
      rw [List.flatMap_singleton] at hrest
      exact hrest.left
    rw [views]
    refine List.forall_mem_cons.2 ⟨h, List.forall_mem_append.2 ⟨?_, ?_⟩⟩
    · exact TagItem.isMade_viewsOfAll t _ _ _ _
    · exact isMade_viewsOfAll _ _ _ _ content hinside
  | .strayEnd tag => fun _ => by
    rw [views]
    exact List.forall_mem_nil _
  | .run kind w => by
    intro h v hv
    rw [views] at hv
    obtain ⟨k, -, rfl⟩ := Option.map_eq_some_iff.1 (Option.mem_toList.1 hv)
    exact ⟨kind, h⟩

theorem isMade_viewsOfAll (enclosing : List Enclosure) (before items : List Item) (offset : Nat) :
    ∀ ns : List Node, Piece.StandAt t offset (piecesOfAll ns) →
      ∀ v ∈ viewsOfAll enclosing before items offset ns, v.item.IsMade t
  | [] => fun _ => by
    rw [viewsOfAll]
    exact List.forall_mem_nil _
  | n :: ns => by
    intro h
    rw [piecesOfAll] at h
    have hrest := h.right
    rw [← text_eq, ← width_eq] at hrest
    rw [viewsOfAll]
    exact List.forall_mem_append.2 ⟨isMade_views _ _ _ _ n h.left,
      isMade_viewsOfAll _ _ _ _ ns hrest⟩

end

end Node

/-- **Every element and every run in the view of a text is made of whole pieces.** -/
theorem Document.isMade_views (t : Text) : ∀ v ∈ (parse t).views, v.item.IsMade t := by
  unfold parse
  split
  · exact List.forall_mem_nil _
  · have hwhole : Piece.StandAt t 0 (Node.piecesOfAll (Node.ofPieces (Piece.ofText t))) := by
      refine ⟨[], [], ?_, rfl⟩
      rw [Node.piecesOfAll_ofPieces, List.append_nil, List.nil_append]
    exact Node.isMade_viewsOfAll _ _ _ 0 _ hwhole

/-! ## Items behind one another -/

/-- Whether some views are of items in a span that are not empty, each of which starts behind the
start of those before it, and lies behind them or inside them. -/
structure View.Stack (s : Span) (vs : List View) : Prop where
  within : ∀ v ∈ vs, v.item.span.Within s
  filled : ∀ v ∈ vs, v.item.span.start < v.item.span.stop
  follows : vs.Pairwise fun v w =>
    v.item.span.start < w.item.span.start ∧ w.item.span.Follows v.item.span

namespace View.Stack

theorem nil (s : Span) : Stack s [] := ⟨by simp, by simp, .nil⟩

theorem singleton {v : View} (h : v.item.span.start < v.item.span.stop) :
    Stack v.item.span [v] :=
  ⟨fun _ hw => List.mem_singleton.1 hw ▸ .refl _, fun _ hw => List.mem_singleton.1 hw ▸ h,
    List.pairwise_singleton _ _⟩

theorem mono {s r : Span} {vs : List View} (h : Stack s vs) (hsr : s.Within r) : Stack r vs :=
  ⟨fun v hv => (h.within v hv).trans hsr, h.filled, h.follows⟩

/-- Views in a span come before those in a span behind it. -/
theorem append {s r u : Span} {vs ws : List View} (hvs : Stack s vs) (hws : Stack r ws)
    (hbehind : s.stop ≤ r.start) (hs : s.Within u) (hr : r.Within u) : Stack u (vs ++ ws) where
  within := List.forall_mem_append.2 ⟨(hvs.mono hs).within, (hws.mono hr).within⟩
  filled := List.forall_mem_append.2 ⟨hvs.filled, hws.filled⟩
  follows := by
    refine List.pairwise_append.2 ⟨hvs.follows, hws.follows, fun v hv w hw => ?_⟩
    have hfilled := hvs.filled v hv
    have hstop := (hvs.within v hv).2
    have hstart := (hws.within w hw).1
    exact ⟨by omega, .inl (by omega)⟩

/-- What is stacked in an element, behind its start, is stacked with the element in front. -/
theorem cons {s : Span} {v : View} {vs : List View} (h : Stack s vs)
    (hfilled : v.item.span.start < v.item.span.stop) (hs : s.Within v.item.span)
    (hstart : v.item.span.start < s.start) : Stack v.item.span (v :: vs) where
  within := List.forall_mem_cons.2 ⟨.refl _, (h.mono hs).within⟩
  filled := List.forall_mem_cons.2 ⟨hfilled, h.filled⟩
  follows := by
    refine List.pairwise_cons.2 ⟨fun w hw => ?_, h.follows⟩
    have hin := h.within w hw
    exact ⟨Nat.lt_of_lt_of_le hstart hin.1, .inr (hin.trans hs)⟩

end View.Stack

theorem TagItem.stack_viewsOfAll (enclosing : List Enclosure) (before : List Item) (offset : Nat)
    (items : List TagItem) (hsolid : ∀ i ∈ items, i.Solid) :
    View.Stack (.ofSize offset (widthOfAll items)) (viewsOfAll enclosing before offset items) := by
  induction items generalizing before offset with
  | nil => exact .nil _
  | cons i items ih =>
    obtain ⟨hi, hitems⟩ := List.forall_mem_cons.1 hsolid
    have hrest (before : List Item) : View.Stack (.ofSize (offset + i.text.width) (widthOfAll items))
        (viewsOfAll enclosing before (offset + i.text.width) items) := ih before _ hitems
    have hbehind : (Span.ofSize (offset + i.text.width) (widthOfAll items)).Within
        (.ofSize offset (widthOfAll (i :: items))) := by
      rw [widthOfAll_cons]
      exact ⟨Nat.le_add_right _ _, Nat.le_of_eq (Nat.add_assoc _ _ _)⟩
    match i with
    | .attribute a =>
      have hpos : 0 < a.text.width := by
        have hname := Text.width_pos hi
        rw [Attribute.text, Text.width_append]
        exact Nat.add_pos_left hname _
      have hfirst : View.Stack _ [View.mk (.attribute ⟨offset, a⟩) before
          (Item.ofTagItems (offset + a.text.width) items) enclosing] :=
        .singleton (Nat.lt_add_of_pos_right hpos)
      refine hfirst.append (hrest _) (Nat.le_refl _) ⟨Nat.le_refl _, ?_⟩ hbehind
      rw [widthOfAll_cons]
      exact Nat.add_le_add_left (Nat.le_add_right _ _) offset
    | .filler f => exact (hrest before).mono hbehind

namespace Node

mutual

theorem stack_views (enclosing : List Enclosure) (before after : List Item) (offset : Nat) :
    ∀ n : Node, (∀ p ∈ n.pieces, p.Solid) →
      View.Stack (.ofSize offset n.width) (n.views enclosing before after offset)
  | .element tag content endTag => by
    intro hsolid
    let e : Element := ⟨offset, tag, content, endTag⟩
    have hpos : 0 < e.node.width := width_pos_of_solid hsolid
    have htag : tag.Solid := hsolid (.start tag) List.mem_cons_self
    have hopener : 0 < tag.opener.width := Text.width_pos htag.opener
    have hitems := TagItem.stack_viewsOfAll (⟨e, before, after⟩ :: enclosing) [] e.itemsStart
      tag.items htag.items
    have hcontent := stack_viewsOfAll (⟨e, before, after⟩ :: enclosing) [] e.children
      e.startTagSpan.stop content fun p hp => hsolid p (by simp [pieces, hp])
    have hstop : e.itemsStart + TagItem.widthOfAll tag.items ≤ e.startTagSpan.stop :=
      e.itemsStart_le_stop
    have hbegin : offset < e.itemsStart := by
      show offset < offset + tag.opener.width + _
      omega
    have hin := e.content_within
    have hcontentStop : e.startTagSpan.stop + widthOfAll content ≤ e.span.stop := hin.2
    have hboth : View.Stack ⟨e.itemsStart, e.span.stop⟩ _ :=
      hitems.append hcontent hstop ⟨Nat.le_refl _, by simp only [Span.ofSize]; omega⟩
        ⟨by simp only [Span.ofSize]; omega, hcontentStop⟩
    rw [views]
    exact hboth.cons (v := ⟨.element e, before, after, enclosing⟩) (Nat.lt_add_of_pos_right hpos)
      ⟨Nat.le_of_lt hbegin, Nat.le_refl _⟩ hbegin
  | .strayEnd tag => fun _ => by
    rw [views]
    exact .nil _
  | .run kind w => by
    intro hsolid
    have hpos := Text.width_pos (hsolid (.run kind w) List.mem_cons_self)
    rw [views]
    cases kind.content? with
    | none => exact .nil _
    | some k =>
      exact .singleton (v := ⟨.content k offset w, before, after, enclosing⟩)
        (Nat.lt_add_of_pos_right hpos)

theorem stack_viewsOfAll (enclosing : List Enclosure) (before items : List Item) (offset : Nat) :
    ∀ ns : List Node, (∀ p ∈ piecesOfAll ns, p.Solid) →
      View.Stack (.ofSize offset (widthOfAll ns)) (viewsOfAll enclosing before items offset ns)
  | [] => fun _ => by
    rw [viewsOfAll]
    exact .nil _
  | n :: ns => by
    intro hsolid
    rw [piecesOfAll, List.forall_mem_append] at hsolid
    rw [viewsOfAll]
    have hfirst := stack_views enclosing before (items.drop (Item.ofNode? (offset, n)).toList.length)
      offset n hsolid.1
    have hrest := stack_viewsOfAll enclosing ((Item.ofNode? (offset, n)).toList ++ before)
      (items.drop (Item.ofNode? (offset, n)).toList.length) (offset + n.width) ns hsolid.2
    exact hfirst.append hrest (Nat.le_refl _)
      ⟨Nat.le_refl _, by simp only [Span.ofSize, widthOfAll]; omega⟩
      ⟨Nat.le_add_right _ _, by simp only [Span.ofSize, widthOfAll]; omega⟩

end

end Node

/-- **The items in the view of a text start one behind the other, and each lies behind those before it
or inside them.** -/
theorem Document.stack_views (t : Text) : View.Stack (.ofSize 0 t.width) (parse t).views := by
  unfold parse
  split
  · exact .nil _
  · have hnodes : Node.widthOfAll (Node.ofPieces (Piece.ofText t)) = t.width := by
      rw [Node.widthOfAll_eq, Node.textOfAll_ofPieces_ofText]
    have hsolid : ∀ p ∈ Node.piecesOfAll (Node.ofPieces (Piece.ofText t)), p.Solid := by
      rw [Node.piecesOfAll_ofPieces]
      exact Piece.solid_ofText t
    rw [← hnodes]
    exact Node.stack_viewsOfAll _ _ _ 0 _ hsolid

end ProjectFile.Markup
