import ProjectFile.Proofs.Expression.Lists
import ProjectFile.Proofs.Expression.Parametric
import ProjectFile.Proofs.Expression.WrittenCondition

/-!
What is read further on.

Tokens that stand further on and are otherwise the same are read as the same tree further on
(`congruence_moved`): where something stands is passed on and never asked for. So a segment that is
moved, with its tokens, is the item that it was, moved by as much (`Segment.item_moved`).
-/

namespace ProjectFile

theorem Span.join_shift (s r : Span) (d : Nat) : (s.shift d).join (r.shift d) = (s.join r).shift d := by
  simp [Span.join, Span.shift, Nat.add_min_add_right, Nat.add_max_add_right]

namespace Expression

/-! ## Trees -/

namespace Expr

/-- A tree further on, with all its spans. -/
def moved (d : Nat) (e : Expr) : Expr := e.mapSpan (·.shift d)

theorem span_moved (d : Nat) (e : Expr) : (e.moved d).span = e.span.shift d := by
  cases e <;> rfl

theorem mapSpanAll_eq_map (f : Span → Span) (es : List Expr) :
    mapSpanAll f es = es.map (mapSpan f) := by
  induction es with
  | nil => rfl
  | cons e es ih => rw [mapSpanAll, ih, List.map_cons]

theorem moved_ofParts (d : Nat) (s s' : Span) (p q : Expr) (ps : List Expr) :
    (ofParts s (p :: q :: ps)).moved d = ofParts s' ((p :: q :: ps).map (moved d)) := by
  have hspan : Expr.span ∘ moved d = (·.shift d) ∘ Expr.span := funext (span_moved d)
  have hlast : (((q :: ps).map (moved d)).getLast?.map Expr.span).getD (p.moved d).span =
      (((q :: ps).getLast?.map Expr.span).getD p.span).shift d := by
    rw [List.getLast?_map, Option.map_map, hspan, ← Option.map_map, span_moved, Option.getD_map]
  have hchildren : mapSpanAll (·.shift d) (p :: q :: ps) = (p :: q :: ps).map (moved d) :=
    mapSpanAll_eq_map _ _
  show Expr.concat _ (mapSpanAll _ _) = .concat _ _
  rw [hchildren, ← List.map_cons, hlast, span_moved, Span.join_shift]

end Expr

/-! ## Tokens -/

/-- A token further on. -/
def Token.moved (d : Nat) (t : Token) : Token := { t with start := t.start + d }

theorem Token.span_moved (d : Nat) (t : Token) : (t.moved d).span = t.span.shift d := by
  simp [Token.moved, Token.span, Span.ofSize, Span.shift, Nat.add_right_comm]

/-- Whether a token is another one further on. -/
def Token.Moves (d : Nat) (t u : Token) : Prop := t.moved d = u

/-- Whether a tree is another one further on. -/
def Expr.Moves (d : Nat) (e f : Expr) : Prop := e.moved d = f

section

variable {d : Nat} {s s' : Span}

theorem forall₂_moves_iff {es fs : List Expr} :
    List.Forall₂ (Expr.Moves d) es fs ↔ es.map (Expr.moved d) = fs := by
  rw [← List.forall₂_eq_eq_eq, List.forall₂_map_left_iff]
  rfl

theorem Spans.shift_eq {first last : TokenKind} (h : Spans (Token.Moves d) first last s s') :
    s.shift d = s' := by
  obtain ⟨rfl, -, rfl, -⟩ := h
  rw [Token.span_moved]
  rfl

theorem Names.moved_eq {n n' : Symbol} (h : Names (Token.Moves d) n n') :
    (⟨n.span.shift d, n.name⟩ : Symbol) = n' := by
  obtain ⟨rfl, -⟩ := h
  rw [Token.span_moved]
  rfl

theorem map_moved_eq_of_rel {n n' : Option Symbol} (h : Option.Rel (Names (Token.Moves d)) n n') :
    n.map (fun n => (⟨n.span.shift d, n.name⟩ : Symbol)) = n' := by
  cases h with
  | none => rfl
  | some h => exact congrArg some h.moved_eq

theorem Operands.moved_eq {e e' : Option Expr} (h : Operands (Token.Moves d) (Expr.Moves d) e e') :
    Expr.mapSpanOption (·.shift d) e = e' := by
  cases h.related with
  | none => rfl
  | some he => exact congrArg some he

theorem moves_prependText {t u : Token} (hfirst : t.Moves d u) (ps : List Expr) :
    (prependText t ps).map (Expr.moved d) = prependText u (ps.map (Expr.moved d)) := by
  obtain rfl := hfirst
  have hliteral : (Expr.literal t.span t.text).moved d = .literal (t.moved d).span t.text :=
    congrArg (Expr.literal · t.text) (Token.span_moved d t).symm
  cases ps with
  | nil => exact congrArg (fun e => [e]) hliteral
  | cons p ps =>
    cases p with
    | literal s value => rfl
    | _ => exact congrArg (fun e => e :: _) hliteral

/-- **Tokens further on are read as trees further on**, if they are the same otherwise. -/
theorem congruence_moved (d : Nat) : Congruence (Token.Moves d) (Expr.Moves d) where
  kind h := by rw [← h, Token.moved]
  text h := by rw [← h, Token.moved]
  plain hfirst hparts := by
    rw [forall₂_moves_iff] at hparts ⊢
    rw [moves_prependText hfirst, hparts]
  property isFunction hspan hname := by
    rw [Expr.Moves, Expr.moved, Expr.mapSpan, hspan.shift_eq, map_moved_eq_of_rel hname]
  items hspan hname htransform hseparator := by
    rw [Expr.Moves, Expr.moved, Expr.mapSpan, hspan.shift_eq, map_moved_eq_of_rel hname,
      htransform.moved_eq, hseparator.moved_eq]
  metadata hspan htype hname := by
    rw [Expr.Moves, Expr.moved, Expr.mapSpan, hspan.shift_eq, map_moved_eq_of_rel htype,
      map_moved_eq_of_rel hname]
  quoted hopen hclose hparts := by
    have hspan := (Spans.intro hopen rfl hclose rfl).shift_eq
    rw [forall₂_moves_iff] at hparts
    rw [Expr.Moves, Expr.moved, Expr.mapSpan, Expr.mapSpanAll_eq_map, hspan]
    exact congrArg (Expr.quoted _) hparts
  call hspan hname harguments := by
    rw [forall₂_moves_iff] at harguments
    rw [Expr.Moves, Expr.moved, Expr.mapSpan, Expr.mapSpanAll_eq_map, hspan.shift_eq, hname.moved_eq]
    exact congrArg (Expr.call _ _) harguments
  group hspan hinner := by
    rw [Expr.Moves, Expr.moved, Expr.mapSpan, hspan.shift_eq]
    exact congrArg (Expr.group _) hinner
  concat hp hq hps := by
    have hparts := forall₂_moves_iff.1 (.cons hp (.cons hq hps))
    exact (Expr.moved_ofParts d _ _ _ _ _).trans (congrArg (ofParts _) hparts)
  compare op hleft hright := by
    rw [← hleft, ← hright, Expr.span_moved, Expr.span_moved, Span.join_shift]
    rfl
  negation hfirst he := by
    rw [← hfirst, ← he, Expr.span_moved]
    rfl
  junction op hleft hright := by
    rw [← hleft, ← hright, Expr.span_moved, Expr.span_moved, Span.join_shift]
    rfl

end

/-! ## Where tokens stand -/

theorem Token.prepend_moved (d : Nat) (t : Token) (ts : List Token) :
    (t.moved d).prepend (ts.map (Token.moved d)) = (t.prepend ts).map (Token.moved d) := by
  cases ts with
  | nil => rfl
  | cons u us =>
    rw [List.map_cons, prepend, prepend, apply_ite (List.map (Token.moved d))]
    rfl

/-- A text further on has the same tokens further on. -/
theorem tokensFrom_add (d offset skip : Nat) (w : Text) :
    tokensFrom (offset + d) skip w = (tokensFrom offset skip w).map (Token.moved d) := by
  induction w generalizing offset skip with
  | nil => rw [tokensFrom, tokensFrom, List.map_nil]
  | cons c w ih =>
    cases skip with
    | succ skip => rw [tokensFrom, tokensFrom, Nat.add_right_comm, ih]
    | zero =>
      rw [tokensFrom, tokensFrom, Nat.add_right_comm, ih, ← Token.prepend_moved]
      rfl

/-! ## Segments -/

namespace Segment

/-- A segment further on, with its tokens. -/
def moved (d : Nat) (s : Segment) : Segment := ⟨s.span.shift d, s.tokens.map (Token.moved d)⟩

theorem text_moved (d : Nat) (s : Segment) : (s.moved d).text = s.text := by
  rw [text, text, moved, List.flatMap_map]
  rfl

theorem trimmedSpan_moved (d : Nat) (s : Segment) :
    (s.moved d).trimmedSpan = s.trimmedSpan.shift d := by
  rw [trimmedSpan, trimmedSpan, text_moved]
  simp [moved, Span.ofSize, Span.shift, Nat.add_right_comm]

theorem related_read_moved (d : Nat) (s : Segment) :
    Related (Expr.Moves d) s.read (s.moved d).read :=
  related_read (congruence_moved d)
    (List.forall₂_map_right_iff.2 (List.forall₂_same.2 fun _ _ => rfl)) rfl

theorem expression_moved (d : Nat) (s : Segment) :
    (s.moved d).expression = s.expression.moved d := by
  have hread := s.related_read_moved d
  rw [expression, expression]
  generalize s.read = x at hread
  generalize (s.moved d).read = y at hread
  cases x with
  | ok e =>
    cases y with
    | ok e' => exact hread.symm
    | error _ => exact hread.elim
  | error _ =>
    cases y with
    | ok _ => exact hread.elim
    | error _ =>
      dsimp only
      rw [text_moved, trimmedSpan_moved]
      rfl

/-- **A segment further on is the same item further on.** -/
theorem item_moved (d : Nat) (s : Segment) :
    (s.moved d).item (s.moved d).expression = (s.item s.expression).moved d := by
  have hempty : (s.moved d).trimmedSpan.isEmpty = s.trimmedSpan.isEmpty := by
    rw [trimmedSpan_moved]
    simp [Span.isEmpty, Span.shift]
  rw [item, item, hempty, apply_ite (Expr.moved d), text_moved, trimmedSpan_moved, expression_moved]
  rfl

end Segment

/-- Tokens further on have the same segments further on. -/
theorem segmentsFrom_moved (d stop start depth : Nat) (inQuote : Bool) (ts : List Token) :
    segmentsFrom (stop + d) (start + d) depth inQuote (ts.map (Token.moved d)) =
      (segmentsFrom stop start depth inQuote ts).map (Segment.moved d) := by
  induction ts generalizing start depth inQuote with
  | nil => rfl
  | cons t ts ih =>
    have hkind : (t.moved d).kind = t.kind := rfl
    have hstop : (t.moved d).span.stop = t.span.stop + d := by
      rw [Token.span_moved]
      rfl
    rw [List.map_cons, segmentsFrom, segmentsFrom, hkind, hstop]
    split
    · rw [ih]
      rfl
    · dsimp only
      rw [ih]
      cases segmentsFrom stop start _ _ ts <;> rfl

end Expression

end ProjectFile
