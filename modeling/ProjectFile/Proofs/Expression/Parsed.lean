import Mathlib.Data.List.Forall2
import ProjectFile.Proofs.Expression.Readers
import ProjectFile.Proofs.Text.Trim

/-!
Every tree that a text is read as is well shaped (`wellShaped_parse`), whether it is read as a
condition, as a list or as whatever it looks like; and where the text cannot be read, the offset that
is reported lies between two of its characters.
-/

namespace ProjectFile

namespace Expression

open ProjectFile.Expression.Expr (Between Fills WellShaped)

/-- Whether reading a text gives what `P` allows, or else stops between two of its characters. -/
def Outcome {α : Type} (t : Text) (P : α → Prop) : Except ParseError α → Prop
  | .ok a => P a
  | .error problem => problem.offset ≤ t.width ∧ t.IsBoundary problem.offset

section

variable {t : Text} {stop start : Nat} {ts : List Token}

theorem Outcome.error {α : Type} {P : α → Prop} {offset : Nat} (h : t.IsBoundary offset)
    (problem : Problem) : Outcome t P (.error ⟨problem, offset⟩) := by
  refine ⟨?_, h⟩
  obtain ⟨front, hfront, rfl⟩ := h
  obtain ⟨back, rfl⟩ := hfront
  rw [Text.width_append]
  exact Nat.le_add_right _ _

theorem Outcome.mono {α : Type} {P Q : α → Prop} {x : Except ParseError α} (hx : Outcome t P x)
    (h : ∀ a, P a → Q a) : Outcome t Q x := by
  cases x with
  | error problem => exact hx
  | ok a => exact h a hx

/-- What is done with the answer of a reader. -/
theorem Answers.outcome {α β : Type} {P : Nat → Taken α → Prop} {Q : β → Prop}
    {x : Except ParseError (Taken α)} {f : Taken α → Except ParseError β} (hx : Answers t stop P x)
    (hf : ∀ offset answer, Token.Stand t stop offset answer.2 → P offset answer →
      Outcome t Q (f answer)) : Outcome t Q (x >>= f) := by
  cases x with
  | error problem => exact .error hx _
  | ok answer =>
    obtain ⟨offset, hstand, hP⟩ := hx
    exact hf offset answer hstand hP

/-! ## Segments -/

theorem outcome_readCondition (h : Token.Stand t stop start ts) :
    Outcome t (fun e => Between t start [e] stop) (readCondition stop ts) := by
  rw [readCondition]
  refine ((readers t stop _).disjunction h).outcome fun after ⟨e, rest⟩ hrest he => ?_
  dsimp only
  split
  · exact he.mono (Nat.le_refl _) (Nat.le_of_eq hrest.tile.1)
  · rw [hrest.head.2.1]
    exact .error hrest.isBoundary.1 _

theorem outcome_readText (h : Token.Stand t stop start ts) :
    Outcome t (fun e => Between t start [e] stop) (readText ⟨start, stop⟩ ts) := by
  obtain ⟨hstart, hstop, -⟩ := h.isBoundary
  rw [readText]
  refine ((readers t stop _).run h).outcome fun after ⟨parts, rest⟩ hrest ⟨hparts, hends⟩ => ?_
  -- No token ends the run, so none is left.
  cases rest with
  | cons u us => cases hends u rfl
  | nil =>
    obtain rfl : after = stop := hrest.tile.1
    exact (hparts.fills_ofParts hstart hstop fun _ => rfl).between

/-- Whether the tokens of a segment stand in it. -/
def Segment.Stands (t : Text) (s : Segment) : Prop := Token.Stand t s.span.stop s.span.start s.tokens

variable {s : Segment}

theorem outcome_read (h : s.Stands t) :
    Outcome t (fun e => Between t s.span.start [e] s.span.stop) s.read := by
  have hcondition := outcome_readCondition h
  have htext := outcome_readText h
  unfold Segment.read
  split
  · exact hcondition
  · split
    · next e he =>
      rw [he] at hcondition
      exact hcondition
    · exact htext
  · exact htext

theorem Segment.covers_trimmedSpan (h : s.Stands t) :
    s.trimmedSpan.Covers t (Text.trim s.text) ∧ s.span.start ≤ s.trimmedSpan.start ∧
      s.trimmedSpan.stop ≤ s.span.stop := by
  have hcovers : s.span.Covers t s.text := h.covers
  obtain ⟨trailing, -, htrim⟩ := Text.exists_trim s.text
  rw [htrim] at hcovers
  obtain ⟨-, hbehind⟩ := hcovers.split
  obtain ⟨htrimmed, hrest⟩ := hbehind.split
  exact ⟨htrimmed, Nat.le_add_right _ _, hrest.cuts.isBoundary.1⟩

/-- The item of a segment stands in it. -/
theorem between_item (h : s.Stands t) {e : Expr} (he : Between t s.span.start [e] s.span.stop) :
    Between t s.span.start [s.item e] s.span.stop := by
  have hcuts : s.span.Cuts t 0 := h.covers.cuts
  obtain ⟨hcovers, hstart, hstop⟩ := Segment.covers_trimmedSpan h
  rw [Segment.item]
  split
  · exact ⟨.of_between hcuts hcuts.isBoundary.1 trivial, Nat.le_refl _, Nat.le_refl _⟩
  · exact ⟨.of_between hcovers.cuts he ⟨hcovers, hcuts, hstart, hstop⟩, hstart, hstop⟩

/-- The trees of segments that stand in a line stand in order. -/
theorem Segment.Line.between {segments : List Segment} {es : List Expr}
    (h : Segment.Line t stop start start segments)
    (hes : List.Forall₂ (fun s e => Between t s.span.start [e] s.span.stop) segments es) :
    Between t start es stop := by
  induction hes generalizing start with
  | nil => cases h
  | cons he hes ih =>
    cases h with
    | last =>
      cases hes
      exact he
    | @cons _ _ _ u _ hfirst _ _ hrest =>
      have hu : u.start ≤ u.span.stop := Nat.le_add_right _ _
      exact (he.mono (Nat.le_refl _) hu).append (ih hrest)

theorem Segment.Line.stands {segments : List Segment}
    (h : Segment.Line t stop start start segments) : ∀ s ∈ segments, s.Stands t := by
  induction segments generalizing start with
  | nil => nofun
  | cons s segments ih =>
    rw [List.forall_mem_cons]
    cases h with
    | last hfirst => exact ⟨hfirst, nofun⟩
    | cons hfirst _ _ hrest => exact ⟨hfirst, ih hrest⟩

/-! ## Lists -/

theorem outcome_readItemsOf : ∀ segments : List Segment, (∀ s ∈ segments, s.Stands t) →
    Outcome t (List.Forall₂ (fun s e => Between t s.span.start [e] s.span.stop) segments)
      (readItemsOf segments)
  | [], _ => .nil
  | s :: segments, h => by
    rw [List.forall_mem_cons] at h
    have hread := outcome_read h.1
    have hrest := outcome_readItemsOf segments h.2
    rw [readItemsOf]
    cases hs : s.read with
    | error problem =>
      rw [hs] at hread
      exact hread
    | ok e =>
      rw [hs] at hread
      cases hsegments : readItemsOf segments with
      | error problem =>
        rw [hsegments] at hrest
        exact hrest
      | ok es =>
        rw [hsegments] at hrest
        exact .cons (between_item h.1 hread) hrest

theorem wellShaped_list {es : List Expr} (h : Between t 0 es t.width) :
    (SimpleList.toExpr ⟨⟨0, t.width⟩, es⟩).WellShaped t :=
  .of_between (Span.covers_whole t).cuts h trivial

end

/-! ## Whole texts -/

/-- **What a text is read as is well shaped.** -/
theorem wellShaped_parse (t : Text) :
    Outcome t (WellShaped t) (parseValue t) ∧ Outcome t (WellShaped t) (parseCondition t) ∧
      (parseList t).toExpr.WellShaped t := by
  have hline := line_segments t
  have hstands := hline.stands
  refine ⟨?value, ?condition, ?list⟩
  case value =>
    unfold parseValue
    split
    · next s hs =>
      exact (outcome_read (hstands s (hs ▸ List.mem_singleton_self s))).mono fun e he => he.1
    · have hitems := outcome_readItemsOf _ hstands
      cases hread : readItemsOf (segments t) with
      | error problem =>
        rw [hread] at hitems
        exact hitems
      | ok es =>
        rw [hread] at hitems
        exact wellShaped_list (hline.between hitems)
  case condition =>
    unfold parseCondition
    dsimp only
    split
    · exact Expr.wellShaped_literal (Span.covers_whole t)
    · exact (outcome_readCondition (stand_tokens t)).mono fun e he => he.1
  case list =>
    refine wellShaped_list (hline.between (List.forall₂_map_right_iff.2 (List.forall₂_same.2 fun s hs => ?_)))
    have hs := hstands s hs
    have hread := outcome_read hs
    split
    · next e he =>
      rw [he] at hread
      exact between_item hs hread
    · obtain ⟨hcovers, hstart, hstop⟩ := Segment.covers_trimmedSpan hs
      exact between_item hs ⟨Expr.wellShaped_literal hcovers, hstart, hstop⟩

end Expression

end ProjectFile
