import Mathlib.Data.List.Infix
import ProjectFile.Evaluation.Expansion
import ProjectFile.Proofs.Expression.Lists
import ProjectFile.Proofs.Expression.Template

/-!
What texts are expanded to.

The references that are replaced in a text are those that its tokens spell, if the text can be read at
all, and else none (`expand_eq`). What cannot be read is a segment that looks like a condition and is
none.

So a template is expanded to its fragments with the values of its references between them
(`expand_template`). A reference begins with a token that has one spelling, so where none of these
spellings stands (`Unreferenced`) the tokens spell no reference, and the text is expanded to itself in
every project (`expand_eq_self`).
-/

namespace ProjectFile

namespace Expression

/-! ## Texts without references -/

/-- What references begin with. -/
def referenceSigns : List Text := ["$(".toList, "@(".toList, "%(".toList]

/-- Whether no reference begins in a text. -/
def Unreferenced (t : Text) : Prop := ∀ sign ∈ referenceSigns, ¬ sign <:+: t

instance (t : Text) : Decidable (Unreferenced t) :=
  inferInstanceAs (Decidable (∀ sign ∈ referenceSigns, ¬ sign <:+: t))

theorem sign?_of_beginsReference {k : TokenKind} (h : k.beginsReference = true) :
    ∃ sign ∈ referenceSigns, k.sign? = some sign := by
  cases k <;> simp [TokenKind.beginsReference] at h <;> simp [referenceSigns, TokenKind.sign?]

/-- A token stands in the text. -/
theorem text_infix_of_mem_tokens {t : Text} {u : Token} (hu : u ∈ tokens t) : u.text <:+: t := by
  obtain ⟨front, back, ht, -⟩ := (stand_tokens t).covers_of_mem hu
  exact ⟨front, back, by rw [ht, List.append_assoc]⟩

/-- What references begin with ends with a parenthesis. -/
theorem unreferenced_of_not_mem {t : Text} (h : '(' ∉ t) : Unreferenced t := by
  intro sign hsign hwithin
  have hend : ∀ sign ∈ referenceSigns, '(' ∈ sign := by decide
  exact h (hwithin.subset (hend sign hsign))

/-- No token of such a text begins a reference. -/
theorem Unreferenced.beginsReference_eq_false {t : Text} (h : Unreferenced t) :
    ∀ u ∈ tokens t, u.kind.beginsReference = false := by
  intro u hu
  by_contra hbegins
  obtain ⟨sign, hsign, hkind⟩ := sign?_of_beginsReference (Bool.not_eq_false _ ▸ hbegins)
  have htext : u.text = sign := text_of_sign? hu hkind
  apply h sign hsign
  rw [← htext]
  exact text_infix_of_mem_tokens hu

/-- Tokens of which none begins a reference spell none. -/
theorem spell_nil {ts : List Token} (h : ∀ u ∈ ts, u.kind.beginsReference = false) :
    Token.Spell ts [] := by
  induction ts with
  | nil => exact .nil
  | cons u ts ih =>
    obtain ⟨hu, hts⟩ := List.forall_mem_cons.1 h
    exact .plain hu (ih hts)

/-- So the tokens of such a text spell none. -/
theorem Unreferenced.spell_tokens {t : Text} (h : Unreferenced t) : Token.Spell (tokens t) [] :=
  spell_nil h.beginsReference_eq_false

end Expression

namespace Evaluation

open Expression

/-! ## Expansion -/

/-- What is replaced in a text that can be read is what its tokens spell. -/
theorem expand_eq (p : EvaluatedProject) {t : Text} {es : List Expr} (h : Token.Spell (tokens t) es) :
    expand p t = if isReadable t then replaceFrom t (referenceValue p) 0 es else t := by
  rw [expand]
  split
  · next problem hproblem =>
    rw [if_neg]
    intro hreadable
    obtain ⟨e, he, -⟩ := exists_parseValue h hreadable
    rw [he] at hproblem
    cases hproblem
  · next e he =>
    have hreferences := references_of_parseValue h he
    rw [Expr.references] at hreferences
    rw [if_pos (isReadable_of_parseValue he), hreferences]

/-- **A text in which no reference begins is expanded to itself.** -/
theorem expand_eq_self (p : EvaluatedProject) {t : Text} (h : Unreferenced t) : expand p t = t := by
  rw [expand_eq p h.spell_tokens]
  split
  · exact (Span.covers_whole t).slice_eq
  · rfl

/-! ## Templates -/

/-- The value that a name stands for in a reference. -/
def EvaluatedProject.textOf (p : EvaluatedProject) (name : Text) : Text :=
  (p.propertyValue? name).getD []

/-- The references of a template are replaced one by one. -/
theorem replaceFrom_references (p : EvaluatedProject) (front : Text) (τ : Template) :
    replaceFrom (front ++ τ.text) (referenceValue p) front.width (τ.references front.width) =
      τ.filled p.textOf := by
  induction τ generalizing front with
  | last fragment =>
    have hcovers : Span.Covers ⟨front.width, (front ++ fragment.text).width⟩ (front ++ fragment.text)
        fragment.text := ⟨front, [], by rw [List.append_nil], rfl, Text.width_append _ _⟩
    exact hcovers.slice_eq
  | reference fragment name rest ih =>
    let start := front.width + fragment.text.width
    let written : Text := '$' :: '(' :: (name.text ++ [')'])
    have htext : front ++ Template.text (.reference fragment name rest) =
        (front ++ fragment.text ++ written) ++ rest.text := by simp [Template.text, written]
    have hwidth : Text.width (front ++ fragment.text ++ written) =
        start + 2 + name.text.width + 1 := by
      have hdollar : '$'.utf8Size = 1 := rfl
      have hopen : '('.utf8Size = 1 := rfl
      have hclose : ')'.utf8Size = 1 := rfl
      simp only [written, start, Text.width_append, Text.width_cons, Text.width_nil, hdollar, hopen,
        hclose]
      omega
    have hcovers : Span.Covers ⟨front.width, start⟩
        ((front ++ fragment.text ++ written) ++ rest.text) fragment.text :=
      ⟨front, written ++ rest.text, by simp, rfl, rfl⟩
    have hrest := ih (front ++ fragment.text ++ written)
    rw [hwidth] at hrest
    rw [htext, Template.references, replaceFrom, Template.filled]
    split
    · next hlt => exact absurd hlt (Nat.not_lt.2 (Nat.le_add_right _ _))
    · dsimp only [Expr.span]
      rw [hrest]
      exact congrArg (· ++ _) hcovers.slice_eq

/-- **A template that can be read is filled with the values of its references**, and any other stays
as it is. -/
theorem expand_template (p : EvaluatedProject) (τ : Template) :
    expand p τ.text = if isReadable τ.text then τ.filled p.textOf else τ.text := by
  rw [expand_eq p τ.spell_tokens]
  split
  · exact replaceFrom_references p [] τ
  · rfl

end Evaluation

end ProjectFile
