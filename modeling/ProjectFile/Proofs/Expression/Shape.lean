import ProjectFile.Proofs.Expression.Tokens

/-!
The shape of expression trees.

A node is shaped by a text (`Expr.Shaped`) if its span is one of the text, its children stand in it
in order and side by side at most, and it says of the text what is so: the value of a literal and the
name of a symbol are what stands there, the parts of a text run leave nothing out, and those of a
quoted string nothing between its quotes. A tree is well shaped if all its nodes are shaped.

`Expr.Between` says the same of trees in a row, and is what a node needs of its children
(`Expr.WellShaped.of_between`, `Expr.Fills.of_between`).
-/

namespace ProjectFile.Expression

namespace Expr

/-! ## Shaped nodes -/

/-- Whether what a node tells about the text is so. -/
def Tells (t : Text) : Expr → Prop
  | .literal s value => s.Covers t value
  | .symbol s => s.span.Covers t s.name
  | .quoted s parts => ∃ opening ∈ tokens t, ∃ closing ∈ tokens t,
    opening.kind = .quote ∧ closing.kind = .quote ∧ s = ⟨opening.start, closing.span.stop⟩ ∧
      Span.TiledBy ⟨opening.span.stop, closing.start⟩ (parts.map Expr.span)
  | .concat s parts => s.TiledBy (parts.map Expr.span)
  | .listItem s segment value _ =>
    s.Covers t value ∧ segment.Cuts t 0 ∧ segment.start ≤ s.start ∧ s.stop ≤ segment.stop
  | _ => True

/-- Whether a node stands in the text as it says. The expression of an item of a list may reach as far
as the segment of the item; all other children stay inside the span of their parent. -/
structure Shaped (t : Text) (e : Expr) : Prop where
  cuts : e.span.Cuts t 0
  ordered : e.children.Pairwise fun a b => a.span.stop ≤ b.span.start
  inside : ∀ c ∈ e.children, (SimpleList.segmentOf e).start ≤ c.span.start ∧
    c.span.stop ≤ (SimpleList.segmentOf e).stop
  tells : e.Tells t

/-- Whether all nodes of a tree are shaped. -/
def WellShaped (t : Text) (e : Expr) : Prop := ∀ n ∈ e.descendants, n.Shaped t

/-! ## Nodes and their children -/

theorem descendantsOfAll_eq (es : List Expr) : descendantsOfAll es = es.flatMap descendants := by
  induction es with
  | nil => rfl
  | cons e es ih => rw [descendantsOfAll, ih, List.flatMap_cons]

theorem descendantsOfOption_eq (e : Option Expr) :
    descendantsOfOption e = e.toList.flatMap descendants := by
  cases e with
  | none => rfl
  | some e => exact (List.append_nil _).symm

theorem flatMap_descendants_ofSymbol? (s : Option Symbol) :
    (ofSymbol? s).flatMap descendants = ofSymbol? s := by
  cases s <;> rfl

/-- Under a node are its children and what is under them. -/
theorem descendants_eq (e : Expr) : e.descendants = e :: e.children.flatMap descendants := by
  cases e <;>
    simp [descendants, children, descendantsOfAll_eq, descendantsOfOption_eq,
      flatMap_descendants_ofSymbol?]

/-- What is so of all nodes of a tree is so of its root and of all nodes of its children. -/
theorem forall_descendants_iff {P : Expr → Prop} {e : Expr} :
    (∀ n ∈ e.descendants, P n) ↔ P e ∧ ∀ c ∈ e.children, ∀ n ∈ c.descendants, P n := by
  rw [descendants_eq, List.forall_mem_cons]
  refine and_congr_right fun _ => ⟨fun h c hc n hn => ?_, fun h n hn => ?_⟩
  · exact h n (List.mem_flatMap.2 ⟨c, hc, hn⟩)
  · obtain ⟨c, hc, hn⟩ := List.mem_flatMap.1 hn
    exact h c hc n hn

theorem sizeOf_lt_of_mem_children {c e : Expr} (h : c ∈ e.children) : sizeOf c < sizeOf e := by
  have hsymbol {s : Option Symbol} (h : c ∈ ofSymbol? s) : sizeOf c ≤ sizeOf s := by
    cases s with
    | none => cases h
    | some s => exact Nat.le_of_eq (congrArg sizeOf (List.mem_singleton.1 h))
  have hoption {d : Option Expr} (h : c ∈ d.toList) : sizeOf c < sizeOf d := by
    cases d with
    | none => cases h
    | some d =>
      rw [List.mem_singleton.1 h, Option.some.sizeOf_spec]
      omega
  have hone {d : Expr} (h : c ∈ [d]) : sizeOf c = sizeOf d := congrArg sizeOf (List.mem_singleton.1 h)
  have htwo {d d' : Expr} (h : c ∈ [d, d']) : sizeOf c = sizeOf d ∨ sizeOf c = sizeOf d' := by
    rcases List.mem_cons.1 h with rfl | h
    · exact .inl rfl
    · exact .inr (hone h)
  cases e with
  | literal => cases h
  | symbol => cases h
  | emptyItem => cases h
  | property s name isFunction =>
    have hle := hsymbol h
    rw [property.sizeOf_spec]
    omega
  | items s itemType transform separator =>
    rw [items.sizeOf_spec]
    rcases List.mem_append.1 h with h | h
    · have hle := hsymbol h
      omega
    · rcases List.mem_append.1 h with h | h <;> have hlt := hoption h <;> omega
  | metadata s itemType name =>
    rw [metadata.sizeOf_spec]
    rcases List.mem_append.1 h with h | h <;> have hle := hsymbol h <;> omega
  | quoted s parts =>
    have hlt := List.sizeOf_lt_of_mem h
    rw [quoted.sizeOf_spec]
    exact Nat.lt_of_lt_of_le hlt (Nat.le_add_left _ _)
  | call s function arguments =>
    rw [call.sizeOf_spec]
    rcases List.mem_cons.1 h with rfl | h
    · rw [symbol.sizeOf_spec]
      have hpos : 0 < sizeOf arguments := by
        cases arguments with
        | nil => exact Nat.one_pos
        | cons =>
          rw [List.cons.sizeOf_spec]
          omega
      omega
    · have hlt := List.sizeOf_lt_of_mem h
      omega
  | group s inner =>
    have heq := hone h
    rw [group.sizeOf_spec]
    omega
  | concat s parts =>
    have hlt := List.sizeOf_lt_of_mem h
    rw [concat.sizeOf_spec]
    exact Nat.lt_of_lt_of_le hlt (Nat.le_add_left _ _)
  | compare s op left right =>
    rw [compare.sizeOf_spec]
    rcases htwo h with heq | heq <;> omega
  | negation s operand =>
    have heq := hone h
    rw [negation.sizeOf_spec]
    omega
  | junction s op left right =>
    rw [junction.sizeOf_spec]
    rcases htwo h with heq | heq <;> omega
  | list s entries =>
    have hlt := List.sizeOf_lt_of_mem h
    rw [list.sizeOf_spec]
    exact Nat.lt_of_lt_of_le hlt (Nat.le_add_left _ _)
  | listItem s segment value expression =>
    have heq := hone h
    rw [listItem.sizeOf_spec]
    omega

/-- What is so of a tree if it is so of its children is so of every tree. -/
theorem children_induction {P : Expr → Prop} (step : ∀ e, (∀ c ∈ e.children, P c) → P e) (e : Expr) :
    P e :=
  step e fun c _ => children_induction step c
termination_by sizeOf e
decreasing_by exact sizeOf_lt_of_mem_children ‹_›

theorem mem_descendants_self (e : Expr) : e ∈ e.descendants := by
  rw [descendants_eq]
  exact List.mem_cons_self

theorem mem_descendants_of_mem_children {c d e : Expr} (hc : c ∈ e.children)
    (hd : d ∈ c.descendants) : d ∈ e.descendants := by
  rw [descendants_eq]
  exact List.mem_cons_of_mem e (List.mem_flatMap.2 ⟨c, hc, hd⟩)

/-- What is under a node of a tree is in the tree. -/
theorem mem_descendants_trans {d n e : Expr} (hn : n ∈ e.descendants) (hd : d ∈ n.descendants) :
    d ∈ e.descendants := by
  induction e using children_induction with
  | step e ih =>
    have hn' := hn
    rw [descendants_eq] at hn'
    rcases List.mem_cons.1 hn' with rfl | hbelow
    · exact hd
    · obtain ⟨c, hc, hnc⟩ := List.mem_flatMap.1 hbelow
      exact mem_descendants_of_mem_children hc (ih c hc hnc)

theorem wellShaped_iff {t : Text} {e : Expr} :
    e.WellShaped t ↔ e.Shaped t ∧ ∀ c ∈ e.children, c.WellShaped t := forall_descendants_iff

theorem WellShaped.le {t : Text} {e : Expr} (h : e.WellShaped t) : e.span.start ≤ e.span.stop :=
  (wellShaped_iff.1 h).1.cuts.isBoundary.1

/-! ## Trees in a row -/

/-- Whether well-shaped trees stand in order between two offsets. -/
def Between (t : Text) : Nat → List Expr → Nat → Prop
  | start, [], stop => start ≤ stop
  | start, e :: es, stop => e.WellShaped t ∧ start ≤ e.span.start ∧ Between t e.span.stop es stop

namespace Between

variable {t : Text} {start stop middle : Nat} {e : Expr} {es fs : List Expr}

theorem singleton_iff : Between t start [e] stop ↔
    e.WellShaped t ∧ start ≤ e.span.start ∧ e.span.stop ≤ stop := Iff.rfl

theorem le (h : Between t start es stop) : start ≤ stop := by
  induction es generalizing start with
  | nil => exact h
  | cons e es ih =>
    obtain ⟨he, hstart, hrest⟩ := h
    exact Nat.le_trans hstart (Nat.le_trans he.le (ih hrest))

theorem mono {start' stop' : Nat} (h : Between t start es stop) (hstart : start' ≤ start)
    (hstop : stop ≤ stop') : Between t start' es stop' := by
  induction es generalizing start start' with
  | nil => exact Nat.le_trans hstart (Nat.le_trans h hstop)
  | cons e es ih =>
    obtain ⟨he, hle, hrest⟩ := h
    exact ⟨he, Nat.le_trans hstart hle, ih hrest (Nat.le_refl _)⟩

theorem append (hes : Between t start es middle) (hfs : Between t middle fs stop) :
    Between t start (es ++ fs) stop := by
  induction es generalizing start with
  | nil => exact hfs.mono hes (Nat.le_refl _)
  | cons e es ih =>
    obtain ⟨he, hle, hrest⟩ := hes
    exact ⟨he, hle, ih hrest⟩

theorem forall_mem (h : Between t start es stop) :
    ∀ e ∈ es, e.WellShaped t ∧ start ≤ e.span.start ∧ e.span.stop ≤ stop := by
  induction es generalizing start with
  | nil => nofun
  | cons e es ih =>
    obtain ⟨he, hle, hrest⟩ := h
    refine List.forall_mem_cons.2 ⟨⟨he, hle, hrest.le⟩, fun c hc => ?_⟩
    obtain ⟨hc, hstart, hstop⟩ := ih hrest c hc
    exact ⟨hc, Nat.le_trans hle (Nat.le_trans he.le hstart), hstop⟩

theorem pairwise (h : Between t start es stop) :
    es.Pairwise fun a b => a.span.stop ≤ b.span.start := by
  induction es generalizing start with
  | nil => exact .nil
  | cons e es ih =>
    obtain ⟨-, -, hrest⟩ := h
    exact .cons (fun c hc => (hrest.forall_mem c hc).2.1) (ih hrest)

/-- Trees that tile a span stand in order in it. -/
theorem of_tiledBy (h : Span.TiledBy ⟨start, stop⟩ (es.map Expr.span))
    (hes : ∀ e ∈ es, e.WellShaped t) : Between t start es stop := by
  induction es generalizing start with
  | nil => exact Nat.le_of_eq h
  | cons e es ih =>
    rw [List.forall_mem_cons] at hes
    obtain ⟨hstart, -, hrest⟩ := h
    exact ⟨hes.1, Nat.le_of_eq hstart.symm, ih hrest hes.2⟩

end Between

/-! ## Building nodes -/

section

variable {t : Text} {start stop : Nat} {e : Expr}

/-- **A node is well shaped if its children stand in order in it**, and what it tells is so. -/
theorem WellShaped.of_between (hcuts : e.span.Cuts t 0)
    (hchildren : Between t (SimpleList.segmentOf e).start e.children (SimpleList.segmentOf e).stop)
    (htells : e.Tells t) : e.WellShaped t :=
  wellShaped_iff.2 ⟨⟨hcuts, hchildren.pairwise, fun c hc => (hchildren.forall_mem c hc).2, htells⟩,
    fun c hc => (hchildren.forall_mem c hc).1⟩

/-- Whether a well-shaped tree reaches from one offset to another. -/
def Fills (t : Text) (start : Nat) (e : Expr) (stop : Nat) : Prop :=
  e.WellShaped t ∧ e.span = ⟨start, stop⟩

theorem Fills.between (h : e.Fills t start stop) : Between t start [e] stop := by
  rw [Between.singleton_iff, h.2]
  exact ⟨h.1, Nat.le_refl _, Nat.le_refl _⟩

/-- A node that is no item of a list reaches over its children, in order. -/
theorem Fills.of_between (hspan : e.span = ⟨start, stop⟩) (hsegment : SimpleList.segmentOf e = e.span)
    (hstart : t.IsBoundary start) (hstop : t.IsBoundary stop)
    (hchildren : Between t start e.children stop) (htells : e.Tells t) : e.Fills t start stop := by
  refine ⟨.of_between ?_ ?_ htells, hspan⟩
  · rw [hspan]
    exact Span.cuts_of_isBoundary hstart hstop hchildren.le
  · rw [hsegment, hspan]
    exact hchildren

theorem wellShaped_literal {s : Span} {value : Text} (h : s.Covers t value) :
    (literal s value).WellShaped t :=
  .of_between h.cuts h.cuts.isBoundary.1 h

theorem wellShaped_symbol {s : Symbol} (h : s.span.Covers t s.name) : (symbol s).WellShaped t :=
  .of_between h.cuts h.cuts.isBoundary.1 h

/-- Two trees in a row are joined to one that reaches from the first to the second. -/
theorem Between.join {left right : Expr} (h : Between t start [left, right] stop) :
    left.span.join right.span = ⟨left.span.start, right.span.stop⟩ := by
  obtain ⟨hleft, -, hright, hle, -⟩ := h
  have hl := hleft.le
  have hr := hright.le
  exact Span.join_eq (by omega) (by omega)

/-! ### Text runs -/

/-- Whether well-shaped trees tile what is between two offsets. -/
def Tiles (t : Text) (start : Nat) (parts : List Expr) (stop : Nat) : Prop :=
  (∀ p ∈ parts, p.WellShaped t) ∧ Span.TiledBy ⟨start, stop⟩ (parts.map Expr.span)

theorem Tiles.nil (t : Text) (offset : Nat) : Tiles t offset [] offset := ⟨nofun, rfl⟩

theorem Tiles.cons {part : Expr} {parts : List Expr} (hpart : part.WellShaped t)
    (h : Tiles t part.span.stop parts stop) : Tiles t part.span.start (part :: parts) stop :=
  ⟨List.forall_mem_cons.2 ⟨hpart, h.1⟩, rfl, hpart.le, h.2⟩

/-- Text in front of a run belongs to it. -/
theorem Tiles.prependText {u : Token} {parts : List Expr} (hcovers : u.span.Covers t u.text)
    (h : Tiles t u.span.stop parts stop) : Tiles t u.start (prependText u parts) stop := by
  have hliteral := Tiles.cons (wellShaped_literal hcovers) h
  unfold Expression.prependText
  split
  · next s value rest =>
    obtain ⟨hparts, hstart, hle, hrest⟩ := h
    rw [List.forall_mem_cons] at hparts
    have hvalue : s.Covers t value := (wellShaped_iff.1 hparts.1).1.tells
    have hspan : s = ⟨u.span.stop, s.stop⟩ := by
      rw [← show s.start = u.span.stop from hstart]
    rw [hspan] at hvalue
    exact .cons (wellShaped_literal (Span.Covers.append hcovers hvalue)) ⟨hparts.2, hrest⟩
  · exact hliteral

/-- **The node of a run reaches from its start to its end.** -/
theorem Tiles.fills_ofParts {parts : List Expr} (h : Tiles t start parts stop)
    (hstart : t.IsBoundary start) (hstop : t.IsBoundary stop) {whenEmpty : Span}
    (hempty : parts = [] → whenEmpty = ⟨start, stop⟩) :
    (ofParts whenEmpty parts).Fills t start stop := by
  obtain ⟨hparts, htiles⟩ := h
  match parts with
  | [] =>
    obtain rfl : start = stop := htiles
    rw [hempty rfl]
    exact ⟨wellShaped_literal (Span.covers_empty hstart), rfl⟩
  | [part] =>
    obtain ⟨hfirst, -, hlast⟩ := htiles
    refine ⟨hparts part List.mem_cons_self, ?_⟩
    rw [← show part.span.start = start from hfirst, ← show part.span.stop = stop from hlast]
    rfl
  | first :: second :: rest =>
    have hspan : (ofParts whenEmpty (first :: second :: rest)).span = ⟨start, stop⟩ := by
      have hjoin := htiles.join_getLast
      rw [List.getLast?_map] at hjoin
      exact hjoin
    have htells : (ofParts whenEmpty (first :: second :: rest)).Tells t := by
      rw [← hspan] at htiles
      exact htiles
    exact .of_between hspan rfl hstart hstop (.of_tiledBy htiles hparts) htells

end

end Expr

end ProjectFile.Expression
