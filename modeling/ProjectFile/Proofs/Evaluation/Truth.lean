import ProjectFile.Evaluation.Condition
import ProjectFile.Proofs.Evaluation.Expanded
import ProjectFile.Proofs.Expression.Formula
import ProjectFile.Proofs.Text.Names
import ProjectFile.Proofs.Text.Trim

/-!
The truth of formulas.

A word stands for itself when it is expanded, and a reference for the value of its property
(`expand_word`, `expand_reference`). A word is no number, so that a comparison with one compares
texts, whatever the other operand is (`compareTexts_of_number?`). From this any tree of a formula has
the truth value that the formula has (`Formula.IsTree.truth`), and so has the formula as a condition
(`Formula.conditionHolds_print`).
-/

namespace ProjectFile

/-! ## Characters of words -/

theorem Expression.code_of_isAlpha {c : Char} (h : c.isAlpha = true) :
    (0x41 ≤ c.toNat ∧ c.toNat ≤ 0x5a) ∨ (0x61 ≤ c.toNat ∧ c.toNat ≤ 0x7a) := by
  rcases Bool.or_eq_true_iff.1 h with hupper | hlower
  · exact .inl (of_decide_eq_true hupper)
  · obtain ⟨hlow, hhigh⟩ := Bool.and_eq_true_iff.1 hlower
    exact .inr ⟨of_decide_eq_true hlow, of_decide_eq_true hhigh⟩

theorem Expression.code_of_isDigit {c : Char} (h : c.isDigit = true) :
    0x30 ≤ c.toNat ∧ c.toNat ≤ 0x39 := by
  obtain ⟨hlow, hhigh⟩ := Bool.and_eq_true_iff.1 h
  exact ⟨of_decide_eq_true hlow, of_decide_eq_true hhigh⟩

theorem Expression.code_of_isWordChar {c : Char} (h : isWordChar c = true) :
    (0x30 ≤ c.toNat ∧ c.toNat ≤ 0x39) ∨ (0x41 ≤ c.toNat ∧ c.toNat ≤ 0x5a) ∨ c.toNat = 0x5f ∨
      (0x61 ≤ c.toNat ∧ c.toNat ≤ 0x7a) := by
  rw [isWordChar, Char.isAlphanum, Bool.or_eq_true, Bool.or_eq_true, beq_iff_eq] at h
  rcases h with (h | h) | rfl
  · have hcode := code_of_isAlpha h
    omega
  · exact .inl (code_of_isDigit h)
  · exact .inr (.inr (.inl rfl))

theorem Expression.isDigit_of_isLetter {c : Char} (h : isLetter c = true) : c.isDigit = false := by
  rw [Bool.eq_false_iff]
  intro hdigit
  have hcode := code_of_isDigit hdigit
  rw [isLetter, Bool.or_eq_true, beq_iff_eq] at h
  rcases h with h | rfl
  · have hcode' := code_of_isAlpha h
    omega
  · exact absurd hcode.2 (by decide)

/-! ## Blanks -/

namespace Text

theorem isBlank_of_isWordChar {c : Char} (h : Expression.isWordChar c = true) : isBlank c = false := by
  have hcode := Expression.code_of_isWordChar h
  rw [← Bool.not_eq_true, isBlank, inRanges_iff]
  rintro ⟨r, hr, hlow, hhigh⟩
  have hrange : ∀ r ∈ blankRanges, r.2 ≤ 0x20 ∨ 0x85 ≤ r.1 := by decide
  have := hrange r hr
  omega

end Text

namespace Evaluation

open Expression

/-! ## Expansion -/

section

variable (p : EvaluatedProject) {t : Text} {ts : List Token} {part : Expr}

/-- A text without separators and operators is read as a text run. -/
theorem parseValue_of_readRun (htokens : tokens t = ts)
    (hsegments : segmentsFrom t.width 0 0 false ts = [⟨⟨0, t.width⟩, ts⟩]) (hlook : lookOf ts = .text)
    (hrun : readRun t.width (fun _ => false) (stepLimit ts) ts = .ok ([part], [])) :
    parseValue t = .ok part := by
  have hall : segments t = [⟨⟨0, t.width⟩, ts⟩] := by rw [segments, htokens, hsegments]
  rw [parseValue, hall]
  dsimp only [Segment.read]
  rw [hlook]
  dsimp only
  rw [readText, hrun]
  rfl

/-- A word stands for itself. -/
theorem expand_word (w : Word) : expand p w.text = w.text := by
  apply expand_eq_self
  apply unreferenced_of_not_mem
  intro hmem
  have hword := w.isWordChar_of_mem '(' hmem
  revert hword
  decide

/-- A reference stands for the value of its property, or for nothing if there is none. -/
theorem expand_reference (w : Word) : expand p w.reference = (p.propertyValue? w.text).getD [] := by
  have hlexed : (tokens w.reference).map Token.lexeme = Formula.referenceLexed w := by
    have hall := Formula.lexes_reference w []
    rw [List.append_nil] at hall
    exact hall.trans (List.append_nil _)
  obtain ⟨o, us, htokens, ho, hus⟩ := List.map_eq_cons_iff.1 hlexed
  obtain ⟨i, us, rfl, hi, hus⟩ := List.map_eq_cons_iff.1 hus
  obtain ⟨c, rfl, hc⟩ := List.map_eq_singleton_iff.1 hus
  have hopen : o.kind = .propertyOpen := congrArg Prod.fst ho
  have hname : i.kind = .identifier := congrArg Prod.fst hi
  have htext : i.text = w.text := congrArg Prod.snd hi
  have hclose : c.kind = .rightParen := congrArg Prod.fst hc
  -- The tokens stand side by side, so the reference is all of the text.
  have hstand := stand_tokens w.reference
  obtain ⟨hstart, hstop, -⟩ := hstand.isBoundary
  rw [htokens] at hstand
  have hfirst : o.start = 0 := hstand.head.2.1
  have hlast : c.span.stop = w.reference.width := hstand.tail.tail.tail.tile.1
  have hparse : parseValue w.reference =
      .ok (.property ⟨0, w.reference.width⟩ (some ⟨i.span, w.text⟩) false) := by
    rw [← hfirst, ← hlast, ← htext]
    refine parseValue_of_readRun htokens ?_ ?_ ?_
    · simp [segmentsFrom, hopen, hname, hclose, TokenKind.opens]
    · simp [lookOf, skipSpace, beginsCall, hasOperator, hopen, hname, hclose, TokenKind.opens]
    · exact readRun_reference _ hopen hname hclose rfl (by simp) (by simp [stepLimit])
  have hbefore : w.reference.slice 0 0 = [] := (Span.covers_empty hstart).slice_eq
  have hbehind : w.reference.slice w.reference.width w.reference.width = [] :=
    (Span.covers_empty hstop).slice_eq
  rw [expand, hparse]
  show replaceFrom _ _ 0 [.property _ _ false] = _
  simp [replaceFrom, Expr.span, hbefore, hbehind, referenceValue]

end

/-! ## Comparison -/

theorem number?_word (w : Word) : number? w.text = none := by
  have hblank : ∀ c ∈ w.text, Text.isBlank c = false :=
    fun c hc => Text.isBlank_of_isWordChar (w.isWordChar_of_mem c hc)
  have htrim : Text.trim w.text = w.first :: w.rest :=
    Text.trim_eq_self (fun c hc => hblank c (List.mem_of_mem_head? hc))
      (fun c hc => hblank c (List.mem_of_getLast? hc))
  have hfirst := w.isLetter_first
  have hdigit : w.first.isDigit = false := isDigit_of_isLetter hfirst
  -- A number begins with a digit, a sign or a point, and none of these is a letter.
  have hne (c : Char) (hc : isLetter c = false) : w.first ≠ c := by
    rintro rfl
    rw [hfirst] at hc
    cases hc
  have hdecimal : decimal? (w.first :: w.rest) = none := by
    simp [decimal?, hdigit, hne '.' rfl, Text.digits?]
  rw [number?, htrim]
  split
  · next h => exact absurd (List.cons.inj h).1 (hne '0' rfl)
  · next h => exact absurd (List.cons.inj h).1 (hne '0' rfl)
  · next h => exact absurd (List.cons.inj h).1 (hne '-' rfl)
  · next h => exact absurd (List.cons.inj h).1 (hne '+' rfl)
  · rw [hdecimal]
    rfl

/-- Of operands that are not both numbers the texts are compared. -/
theorem compareTexts_of_number? {right : Text} (h : number? right = none) (left : Text)
    (isEqual : Bool) :
    compareTexts (Formula.comparison isEqual) left right = .ok (Text.sameName left right == isEqual) := by
  unfold compareTexts
  rw [h]
  cases number? left <;> cases isEqual <;> simp [Formula.comparison]

end Evaluation

/-! ## Truth -/

namespace Expression.Formula

open Evaluation

/-- **A tree of a formula has the truth value of the formula**, where names have the values that the
project has for them. -/
theorem IsTree.truth {s : Surroundings} {t : Text} {f : Formula} {e : Expr} (h : f.IsTree t e) :
    truth s t e = .ok (f.meaning fun name => (s.project.propertyValue? name).getD []) := by
  induction h with
  | @atom property word isEqual _ _ _ _ _ hleft hright =>
    rw [Evaluation.truth, operandText, operandText, hleft, hright, expand_reference, expand_word,
      compareTexts_of_number? (number?_word word)]
    rfl
  | negation _ ih =>
    rw [Evaluation.truth, ih]
    rfl
  | @junction _ op _ f g _ _ _ _ ihleft ihright =>
    -- The right side is looked at only where the left one does not decide.
    cases op with
    | conjunction =>
      rw [Evaluation.truth, ihleft, ihright, meaning]
      cases f.meaning _ <;> rfl
    | disjunction =>
      rw [Evaluation.truth, ihleft, ihright, meaning]
      cases f.meaning _ <;> rfl
  | group _ ih => rw [Evaluation.truth, ih]

/-- **A formula holds as a condition if and only if it is true.** -/
theorem conditionHolds_print (s : Surroundings) (f : Formula) :
    conditionHolds s f.print = .ok (f.meaning fun name => (s.project.propertyValue? name).getD []) := by
  obtain ⟨d, t, hprint, hd⟩ := exists_head false f
  have hblank : Text.isBlank d = false := by rcases hd with rfl | rfl | rfl <;> rfl
  have hfull : ¬ (Text.trim f.print).isEmpty = true := by
    rw [show f.print = d :: t from hprint, List.isEmpty_iff]
    exact Text.trim_cons_ne_nil hblank t
  obtain ⟨e, he, htree⟩ := exists_parseCondition_print f
  rw [conditionHolds, if_neg hfull, he]
  exact htree.truth

end Expression.Formula

end ProjectFile
