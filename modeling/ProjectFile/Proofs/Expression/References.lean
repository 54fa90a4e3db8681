import Mathlib.Data.List.Forall2
import Mathlib.Data.List.TakeWhile
import ProjectFile.Proofs.Expression.Formula
import ProjectFile.Proofs.Expression.Readers
import ProjectFile.Proofs.Text.Trim

/-!
The references in what is read.

`Token.Spell ts es` says of tokens that the references `es`, each a name in parentheses, are all that
begins with a sign of references among them. However such tokens are read, the references of the
tree are those that the tokens spell, in their order: what a reader takes and what it leaves make up
what it was given (`Collects`), and the readers that call one another are settled together
(`collectors`).

A text run of such tokens is always read, a condition not always. So a value is read exactly if each
of its segments that looks like a condition is one (`exists_parseValue`, `exists_error_parseValue`).
-/

namespace ProjectFile.Expression

/-! ## References of trees -/

namespace Expr

/-- The references in a tree, in source order. -/
def references (e : Expr) : List Expr := e.descendants.filter isReference

/-- The references in several trees. -/
def referencesOfAll (es : List Expr) : List Expr := es.flatMap references

/-- A node that is no reference has those of its children. -/
theorem references_of_isReference {e : Expr} (h : e.isReference = false) :
    e.references = referencesOfAll e.children := by
  rw [references, descendants_eq, List.filter_cons, if_neg (by rw [h]; exact Bool.false_ne_true),
    List.filter_flatMap]
  rfl

@[simp] theorem references_property (s : Span) (name : Option Symbol) (isFunction : Bool) :
    (property s name isFunction).references = [property s name isFunction] := by
  cases name <;> rfl

@[simp] theorem references_quoted (s : Span) (parts : List Expr) :
    (quoted s parts).references = referencesOfAll parts := references_of_isReference rfl

@[simp] theorem references_call (s : Span) (function : Symbol) (arguments : List Expr) :
    (call s function arguments).references = referencesOfAll arguments :=
  references_of_isReference rfl

@[simp] theorem references_group (s : Span) (inner : Expr) :
    (group s inner).references = inner.references := by
  rw [references_of_isReference rfl]
  simp [children, referencesOfAll]

@[simp] theorem references_concat (s : Span) (parts : List Expr) :
    (concat s parts).references = referencesOfAll parts := references_of_isReference rfl

@[simp] theorem references_compare (s : Span) (op : Comparison) (left right : Expr) :
    (compare s op left right).references = left.references ++ right.references := by
  rw [references_of_isReference rfl]
  simp [children, referencesOfAll]

@[simp] theorem references_negation (s : Span) (operand : Expr) :
    (negation s operand).references = operand.references := by
  rw [references_of_isReference rfl]
  simp [children, referencesOfAll]

@[simp] theorem references_junction (s : Span) (op : Junction) (left right : Expr) :
    (junction s op left right).references = left.references ++ right.references := by
  rw [references_of_isReference rfl]
  simp [children, referencesOfAll]

@[simp] theorem references_list (s : Span) (entries : List Expr) :
    (list s entries).references = referencesOfAll entries := references_of_isReference rfl

@[simp] theorem references_listItem (s segment : Span) (value : Text) (e : Expr) :
    (listItem s segment value e).references = e.references := by
  rw [references_of_isReference rfl]
  simp [children, referencesOfAll]

@[simp] theorem references_emptyItem (s : Span) : (emptyItem s).references = [] := rfl

@[simp] theorem referencesOfAll_nil : referencesOfAll [] = [] := rfl

@[simp] theorem referencesOfAll_cons (e : Expr) (es : List Expr) :
    referencesOfAll (e :: es) = e.references ++ referencesOfAll es := rfl

/-- Plain text adds no reference to a text run. -/
theorem referencesOfAll_prependText (t : Token) (parts : List Expr) :
    referencesOfAll (prependText t parts) = referencesOfAll parts := by
  unfold prependText
  split <;> rfl

theorem references_ofParts (whenEmpty : Span) (parts : List Expr) :
    (ofParts whenEmpty parts).references = referencesOfAll parts := by
  match parts with
  | [] => rfl
  | [part] => simp [ofParts]
  | first :: second :: rest => exact references_concat _ _

end Expr

/-! ## References of tokens -/

/-- Whether a token of the kind begins a reference. -/
def TokenKind.beginsReference : TokenKind → Bool
  | .propertyOpen => true
  | .itemOpen => true
  | .metadataOpen => true
  | _ => false

/-- Whether some references to properties, each a name in parentheses, are all the references that
tokens spell. -/
inductive Token.Spell : List Token → List Expr → Prop
  | nil : Spell [] []
  | plain {t : Token} {ts : List Token} {es : List Expr} (hplain : t.kind.beginsReference = false)
    (h : Spell ts es) : Spell (t :: ts) es
  | reference {o i c : Token} {ts : List Token} {es : List Expr} (hopen : o.kind = .propertyOpen)
    (hsign : '$' ∈ o.text) (hname : i.kind = .identifier) (hclose : c.kind = .rightParen)
    (h : Spell ts es) :
    Spell (o :: i :: c :: ts)
      (.property ⟨o.start, c.span.stop⟩ (some ⟨i.span, i.text⟩) false :: es)

namespace Token.Spell

variable {t o : Token} {ts : List Token} {es : List Expr}

/-- Where no reference begins the tokens behind spell the same. -/
theorem tail (h : Spell (t :: ts) es) (ht : t.kind ≠ .propertyOpen) : Spell ts es := by
  cases h with
  | plain _ h => exact h
  | reference hopen => exact absurd hopen ht

theorem tail_of_kind {kind : TokenKind} (h : Spell (t :: ts) es) (ht : t.kind = kind)
    (hkind : kind.beginsReference = false) : Spell ts es := by
  refine h.tail fun hopen => ?_
  rw [← ht, hopen] at hkind
  cases hkind

theorem tail_of_isWord {word : Text} (h : Spell (t :: ts) es) (ht : t.isWord word = true) :
    Spell ts es :=
  h.tail_of_kind (beq_iff_eq.1 (Bool.and_eq_true_iff.1 ht).1) rfl

/-- Where one begins it is there as a whole. -/
theorem exists_reference (h : Spell (o :: ts) es) (hopen : o.kind = .propertyOpen) :
    ∃ i c rest left, ts = i :: c :: rest ∧ i.kind = .identifier ∧ c.kind = .rightParen ∧
      es = .property ⟨o.start, c.span.stop⟩ (some ⟨i.span, i.text⟩) false :: left ∧
      Spell rest left := by
  cases h with
  | plain hplain =>
    rw [hopen] at hplain
    cases hplain
  | reference _ _ hname hclose h => exact ⟨_, _, _, _, rfl, hname, hclose, rfl, h⟩

/-- No other references are there. -/
theorem kind_ne (h : Spell (t :: ts) es) : t.kind ≠ .itemOpen ∧ t.kind ≠ .metadataOpen := by
  cases h with
  | plain hplain =>
    constructor <;>
    · intro hkind
      rw [hkind] at hplain
      cases hplain
  | reference hopen =>
    rw [hopen]
    exact ⟨nofun, nofun⟩

theorem skipSpace (h : Spell ts es) : Spell (skipSpace ts) es := by
  induction ts with
  | nil => exact h
  | cons t ts ih =>
    by_cases hspace : t.kind = .space
    · rw [skipSpace_space hspace]
      exact ih (h.tail_of_kind hspace rfl)
    · rw [skipSpace_cons hspace]
      exact h

/-- Text in front of tokens, joined to the first of them or not, spells nothing. -/
theorem prepend (h : Spell ts es) (hplain : t.kind.beginsReference = false) :
    Spell (t.prepend ts) es := by
  cases ts with
  | nil => exact .plain hplain h
  | cons u us =>
    rw [Token.prepend]
    split
    · next hkinds => exact .plain hplain (h.tail_of_kind hkinds.2 rfl)
    · exact .plain hplain h

end Token.Spell

open Token (Spell)

/-! ## Readers -/

/-- Whether a reader, if it answers, leaves tokens that spell what `P` allows for its answer. -/
def Collects {α : Type} (P : Taken α → List Expr → Prop) : Except ParseError (Taken α) → Prop
  | .ok answer => ∃ left, Spell answer.2 left ∧ P answer left
  | .error _ => True

namespace Collects

variable {α β : Type}

theorem ok {P : Taken α → List Expr → Prop} {answer : Taken α} {left : List Expr}
    (h : Spell answer.2 left) (hP : P answer left) : Collects P (.ok answer) := ⟨left, h, hP⟩

theorem error {P : Taken α → List Expr → Prop} (problem : ParseError) :
    Collects P (.error problem) := trivial

/-- One reader after another. -/
theorem bind {P : Taken α → List Expr → Prop} {Q : Taken β → List Expr → Prop}
    {x : Except ParseError (Taken α)} {f : Taken α → Except ParseError (Taken β)}
    (hx : Collects P x)
    (hf : ∀ a ts left, Spell ts left → P (a, ts) left → Collects Q (f (a, ts))) :
    Collects Q (x >>= f) := by
  cases x with
  | error problem => trivial
  | ok answer =>
    obtain ⟨left, hleft, hP⟩ := hx
    exact hf answer.1 answer.2 left hleft hP

end Collects

/-- Whether references are those of what was read, and behind them those that are left. -/
def Taken.Splits {α : Type} (es : List Expr) (refs : α → List Expr) (answer : Taken α)
    (left : List Expr) : Prop :=
  es = refs answer.1 ++ left

open ProjectFile.Expression.Expr

/-- What the readers that may still make `n` calls collect. -/
structure Collectors (stop n : Nat) : Prop where
  run : ∀ {ends : TokenKind → Bool} {ts : List Token} {es : List Expr}, Spell ts es →
    Collects (fun answer left => Taken.Splits es referencesOfAll answer left ∧
      ∀ u ∈ answer.2.head?, ends u.kind = true) (readRun stop ends n ts)
  quoted : ∀ {start : Nat} {ts : List Token} {es : List Expr}, Spell ts es →
    Collects (Taken.Splits es references) (readQuoted stop n start ts)
  disjunction : ∀ {ts : List Token} {es : List Expr}, Spell ts es →
    Collects (Taken.Splits es references) (readOr stop n ts)
  moreDisjunction : ∀ {e : Expr} {ts : List Token} {es : List Expr}, Spell ts es →
    Collects (Taken.Splits (e.references ++ es) references) (readMoreOr stop n e ts)
  conjunction : ∀ {ts : List Token} {es : List Expr}, Spell ts es →
    Collects (Taken.Splits es references) (readAnd stop n ts)
  moreConjunction : ∀ {e : Expr} {ts : List Token} {es : List Expr}, Spell ts es →
    Collects (Taken.Splits (e.references ++ es) references) (readMoreAnd stop n e ts)
  negation : ∀ {ts : List Token} {es : List Expr}, Spell ts es →
    Collects (Taken.Splits es references) (readNot stop n ts)
  operand : ∀ {u : Token} {ts : List Token} {es : List Expr}, Spell (u :: ts) es →
    Collects (Taken.Splits es references) (readOperand stop n u ts)
  arguments : ∀ {ts : List Token} {es : List Expr}, Spell ts es →
    Collects (Taken.Splits es referencesOfAll) (readArguments stop n ts)
  moreArguments : ∀ {ts : List Token} {es : List Expr}, Spell ts es →
    Collects (Taken.Splits es referencesOfAll) (readMoreArguments stop n ts)

/-- The parenthesis at the end of a group or a call spells nothing. -/
theorem collects_closeParenthesis {stop : Nat} {ts : List Token} {es : List Expr} (h : Spell ts es) :
    Collects (fun _ left => left = es) (closeParenthesis stop ts) := by
  cases ts with
  | nil => exact .error _
  | cons u us =>
    rw [closeParenthesis]
    split
    · next hkind => exact .ok (h.tail_of_kind hkind rfl) rfl
    · exact .error _

section

variable {stop n : Nat} {u : Token} {ts : List Token} {es : List Expr} {e : Expr}
  (collectors : ∀ m < n, Collectors stop m)

include collectors

/-! ### Text runs and quoted strings -/

theorem collects_readRun {ends : TokenKind → Bool} (h : Spell ts es) :
    Collects (fun answer left => Taken.Splits es referencesOfAll answer left ∧
      ∀ u ∈ answer.2.head?, ends u.kind = true) (readRun stop ends n ts) := by
  cases ts with
  | nil =>
    rw [readRun]
    exact .ok h ⟨rfl, fun v hv => absurd hv (Option.not_mem_none v)⟩
  | cons u us =>
    cases n with
    | zero =>
      rw [readRun]
      exact .error _
    | succ n =>
      have hcollectors := collectors n (Nat.lt_succ_self n)
      rw [readRun]
      split
      · next hends =>
        refine .ok h ⟨rfl, fun v hv => ?_⟩
        cases hv
        exact hends
      · split
        · next hopen =>
          obtain ⟨i, c, rest, left, rfl, hname, hclose, rfl, hrest⟩ := h.exists_reference hopen
          rw [readProperty_name stop u.start hname hclose]
          refine (hcollectors.run hrest).bind fun parts rest last hlast hboth => ?_
          obtain ⟨hsplits, hends⟩ := hboth
          refine .ok hlast ⟨?_, hends⟩
          rw [Taken.Splits, referencesOfAll_cons, references_property, hsplits]
          rfl
        · next hopen => exact absurd hopen h.kind_ne.1
        · next hopen => exact absurd hopen h.kind_ne.2
        · next hopen _ _ =>
          refine (hcollectors.run (h.tail hopen)).bind fun parts rest last hlast hparts => ?_
          obtain ⟨hsplits, hends⟩ := hparts
          refine .ok hlast ⟨?_, hends⟩
          rw [Taken.Splits, Expr.referencesOfAll_prependText, hsplits]

theorem collects_readQuoted {start : Nat} (h : Spell ts es) :
    Collects (Taken.Splits es references) (readQuoted stop n start ts) := by
  cases n with
  | zero =>
    rw [readQuoted]
    exact .error _
  | succ n =>
    have hcollectors := collectors n (Nat.lt_succ_self n)
    rw [readQuoted]
    refine (hcollectors.run h).bind fun parts rest left hleft hboth => ?_
    obtain ⟨hsplits, hends⟩ := hboth
    cases rest with
    | nil => exact .error _
    | cons v vs =>
      have hclosing : v.kind = .quote := beq_iff_eq.1 (hends v rfl)
      refine .ok (hleft.tail_of_kind hclosing rfl) ?_
      rw [Taken.Splits, references_quoted]
      exact hsplits

/-! ### Conditions -/

theorem collects_readOr (h : Spell ts es) :
    Collects (Taken.Splits es references) (readOr stop n ts) := by
  cases n with
  | zero =>
    rw [readOr]
    exact .error _
  | succ n =>
    have hcollectors := collectors n (Nat.lt_succ_self n)
    rw [readOr]
    refine (hcollectors.conjunction h).bind fun first rest left hleft hsplits => ?_
    obtain rfl := hsplits
    exact hcollectors.moreDisjunction hleft

theorem collects_readMoreOr (h : Spell ts es) :
    Collects (Taken.Splits (e.references ++ es) references) (readMoreOr stop n e ts) := by
  cases n with
  | zero =>
    rw [readMoreOr]
    exact .error _
  | succ n =>
    have hcollectors := collectors n (Nat.lt_succ_self n)
    have hskipped := h.skipSpace
    rw [readMoreOr]
    split
    · next hnil =>
      rw [hnil] at hskipped
      exact .ok hskipped rfl
    · next u us hus =>
      rw [hus] at hskipped
      split
      · next hword =>
        refine (hcollectors.conjunction (hskipped.tail_of_isWord hword)).bind
          fun right rest left hleft hsplits => ?_
        obtain rfl := hsplits
        have hmore := hcollectors.moreDisjunction
          (e := .junction (e.span.join right.span) .disjunction e right) hleft
        rwa [references_junction, List.append_assoc] at hmore
      · exact .ok hskipped rfl

theorem collects_readAnd (h : Spell ts es) :
    Collects (Taken.Splits es references) (readAnd stop n ts) := by
  cases n with
  | zero =>
    rw [readAnd]
    exact .error _
  | succ n =>
    have hcollectors := collectors n (Nat.lt_succ_self n)
    rw [readAnd]
    refine (hcollectors.negation h).bind fun first rest left hleft hsplits => ?_
    obtain rfl := hsplits
    exact hcollectors.moreConjunction hleft

theorem collects_readMoreAnd (h : Spell ts es) :
    Collects (Taken.Splits (e.references ++ es) references) (readMoreAnd stop n e ts) := by
  cases n with
  | zero =>
    rw [readMoreAnd]
    exact .error _
  | succ n =>
    have hcollectors := collectors n (Nat.lt_succ_self n)
    have hskipped := h.skipSpace
    rw [readMoreAnd]
    split
    · next hnil =>
      rw [hnil] at hskipped
      exact .ok hskipped rfl
    · next u us hus =>
      rw [hus] at hskipped
      split
      · next hword =>
        refine (hcollectors.negation (hskipped.tail_of_isWord hword)).bind
          fun right rest left hleft hsplits => ?_
        obtain rfl := hsplits
        have hmore := hcollectors.moreConjunction
          (e := .junction (e.span.join right.span) .conjunction e right) hleft
        rwa [references_junction, List.append_assoc] at hmore
      · exact .ok hskipped rfl

theorem collects_readNot (h : Spell ts es) :
    Collects (Taken.Splits es references) (readNot stop n ts) := by
  cases n with
  | zero =>
    rw [readNot]
    exact .error _
  | succ n =>
    have hcollectors := collectors n (Nat.lt_succ_self n)
    have hskipped := h.skipSpace
    rw [readNot]
    split
    · exact .error _
    · next u us hus =>
      rw [hus] at hskipped
      split
      · next hbang =>
        refine (hcollectors.negation (hskipped.tail_of_kind hbang rfl)).bind
          fun operand rest left hleft hsplits => ?_
        refine .ok hleft ?_
        rw [Taken.Splits, references_negation]
        exact hsplits
      · refine (hcollectors.operand hskipped).bind fun left rest behind hbehind hsplits => ?_
        obtain rfl := hsplits
        have hspaced := hbehind.skipSpace
        dsimp only
        split
        · next hnil =>
          rw [hnil] at hspaced
          exact .ok hspaced rfl
        · next v vs hvs =>
          rw [hvs] at hspaced
          split
          · exact .error _
          · next op w ws hkind hws =>
            have hbehind' := (hspaced.tail_of_kind hkind rfl).skipSpace
            rw [hws] at hbehind'
            refine (hcollectors.operand hbehind').bind fun right rest last hlast hsplits => ?_
            obtain rfl := hsplits
            refine .ok hlast ?_
            rw [Taken.Splits, references_compare, List.append_assoc]
          · exact .ok hspaced rfl

theorem collects_readOperand (h : Spell (u :: ts) es) :
    Collects (Taken.Splits es references) (readOperand stop n u ts) := by
  cases n with
  | zero =>
    rw [readOperand]
    exact .error _
  | succ n =>
    have hcollectors := collectors n (Nat.lt_succ_self n)
    rw [readOperand]
    split
    · next hquote => exact hcollectors.quoted (h.tail_of_kind hquote rfl)
    split
    · next hparenthesis =>
      refine (hcollectors.disjunction (h.tail_of_kind hparenthesis rfl)).bind
        fun inner rest left hleft hsplits => ?_
      refine (collects_closeParenthesis hleft).bind fun after rest last hlast hsame => ?_
      subst hsame
      refine .ok hlast ?_
      rw [Taken.Splits, references_group]
      exact hsplits
    split
    · next hcall =>
      obtain ⟨v, vs, rfl⟩ := exists_of_beginsCall hcall
      obtain ⟨hname, hopen⟩ := Bool.and_eq_true_iff.1 hcall
      have harguments := (h.tail_of_kind (beq_iff_eq.1 hname) rfl).tail_of_kind
        (beq_iff_eq.1 hopen) rfl
      refine (hcollectors.arguments harguments).bind fun arguments rest left hleft hsplits => ?_
      refine (collects_closeParenthesis hleft).bind fun after rest last hlast hsame => ?_
      subst hsame
      refine .ok hlast ?_
      rw [Taken.Splits, references_call]
      exact hsplits
    split
    · exact .error _
    · refine (hcollectors.run h).bind fun parts rest left hleft hboth => ?_
      obtain ⟨hsplits, -⟩ := hboth
      dsimp only
      split
      · exact .error _
      · refine .ok hleft ?_
        rw [Taken.Splits, references_ofParts]
        exact hsplits

theorem collects_readArguments (h : Spell ts es) :
    Collects (Taken.Splits es referencesOfAll) (readArguments stop n ts) := by
  cases n with
  | zero =>
    rw [readArguments]
    exact .error _
  | succ n =>
    have hcollectors := collectors n (Nat.lt_succ_self n)
    rw [readArguments]
    split
    · exact .ok h.skipSpace rfl
    · exact hcollectors.moreArguments h.skipSpace

theorem collects_readMoreArguments (h : Spell ts es) :
    Collects (Taken.Splits es referencesOfAll) (readMoreArguments stop n ts) := by
  cases n with
  | zero =>
    rw [readMoreArguments]
    exact .error _
  | succ n =>
    have hcollectors := collectors n (Nat.lt_succ_self n)
    rw [readMoreArguments]
    refine (hcollectors.disjunction h).bind fun argument rest left hleft hsplits => ?_
    have hlast : Taken.Splits es referencesOfAll (([argument], rest) : Taken (List Expr)) left := by
      rw [Taken.Splits, referencesOfAll_cons, referencesOfAll_nil, List.append_nil]
      exact hsplits
    cases rest with
    | nil => exact .ok hleft hlast
    | cons v vs =>
      dsimp only
      split
      · next hcomma =>
        refine (hcollectors.moreArguments (hleft.tail_of_kind hcomma rfl)).bind
          fun arguments rest behind hbehind hmore => ?_
        refine .ok hbehind ?_
        obtain rfl := hmore
        rw [Taken.Splits, referencesOfAll_cons, List.append_assoc]
        exact hsplits
      · exact .ok hleft hlast

end

/-- **What a reader takes and what it leaves spell what it was given.** -/
theorem collectors (stop n : Nat) : Collectors stop n := by
  induction n using Nat.strongRecOn with
  | ind n ih =>
    exact {
      run := collects_readRun ih
      quoted := collects_readQuoted ih
      disjunction := collects_readOr ih
      moreDisjunction := collects_readMoreOr ih
      conjunction := collects_readAnd ih
      moreConjunction := collects_readMoreAnd ih
      negation := collects_readNot ih
      operand := collects_readOperand ih
      arguments := collects_readArguments ih
      moreArguments := collects_readMoreArguments ih }

/-! ## Segments -/

/-- Tokens that are read as a condition spell its references. -/
theorem references_of_readCondition {stop : Nat} {ts : List Token} {es : List Expr} {e : Expr}
    (h : Spell ts es) (he : readCondition stop ts = .ok e) : e.references = es := by
  have hcollects := (collectors stop (stepLimit ts)).disjunction h
  rw [readCondition] at he
  cases hread : readOr stop (stepLimit ts) ts with
  | error problem =>
    rw [hread] at he
    cases he
  | ok answer =>
    obtain ⟨condition, rest⟩ := answer
    rw [hread] at hcollects he
    obtain ⟨left, hleft, hsplits⟩ := hcollects
    cases rest with
    | cons u us => cases he
    | nil =>
      cases he
      cases hleft
      rw [hsplits]
      exact (List.append_nil _).symm

/-- Text and references are always read as a text run. -/
theorem exists_readRun (stop : Nat) {ts : List Token} {es : List Expr} (h : Spell ts es) {n : Nat}
    (hn : ts.length ≤ n) : ∃ parts, readRun stop (fun _ => false) n ts = .ok (parts, []) ∧
      referencesOfAll parts = es := by
  induction h generalizing n with
  | nil => exact ⟨[], by rw [readRun], rfl⟩
  | @plain t ts es hplain h ih =>
    rw [List.length_cons] at hn
    obtain ⟨n, rfl⟩ := Nat.exists_eq_add_one_of_ne_zero (show n ≠ 0 by omega)
    obtain ⟨parts, hparts, hreferences⟩ := ih (n := n) (by omega)
    refine ⟨prependText t parts, ?_, by rw [referencesOfAll_prependText, hreferences]⟩
    rw [readRun, if_neg Bool.false_ne_true]
    split
    · next hkind => rw [hkind] at hplain; cases hplain
    · next hkind => rw [hkind] at hplain; cases hplain
    · next hkind => rw [hkind] at hplain; cases hplain
    · rw [hparts]
      rfl
  | @reference o i c ts es hopen _ hname hclose h ih =>
    simp only [List.length_cons] at hn
    obtain ⟨n, rfl⟩ := Nat.exists_eq_add_one_of_ne_zero (show n ≠ 0 by omega)
    obtain ⟨parts, hparts, hreferences⟩ := ih (n := n) (by omega)
    refine ⟨.property ⟨o.start, c.span.stop⟩ (some ⟨i.span, i.text⟩) false :: parts, ?_, ?_⟩
    · rw [readRun, if_neg Bool.false_ne_true, hopen]
      simp only [readProperty_name stop o.start hname hclose, hparts, bind, Except.bind, pure,
        Except.pure]
    · rw [referencesOfAll_cons, references_property, hreferences]
      rfl

theorem exists_readText (segment : Span) {ts : List Token} {es : List Expr} (h : Spell ts es) :
    ∃ e, readText segment ts = .ok e ∧ e.references = es := by
  obtain ⟨parts, hparts, hreferences⟩ :=
    exists_readRun segment.stop h (n := stepLimit ts) (by rw [stepLimit]; omega)
  refine ⟨ofParts segment parts, ?_, by rw [references_ofParts, hreferences]⟩
  rw [readText, hparts]
  rfl

/-- Whether a segment is a condition if it looks like one. -/
def Segment.isReadable (s : Segment) : Bool :=
  lookOf s.tokens != .condition || (readCondition s.span.stop s.tokens).toBool

variable {s : Segment} {es : List Expr}

/-- Such a segment is read, and what it is read as has its references. -/
theorem Segment.exists_read (h : Spell s.tokens es) (hreadable : s.isReadable = true) :
    ∃ e, s.read = .ok e ∧ e.references = es := by
  have htext := exists_readText s.span h
  rw [isReadable] at hreadable
  unfold Segment.read
  cases hlook : lookOf s.tokens with
  | text => exact htext
  | operators =>
    dsimp only
    cases hread : readCondition s.span.stop s.tokens with
    | ok e => exact ⟨e, rfl, references_of_readCondition h hread⟩
    | error problem => exact htext
  | condition =>
    cases hread : readCondition s.span.stop s.tokens with
    | ok e => exact ⟨e, rfl, references_of_readCondition h hread⟩
    | error problem =>
      rw [hlook, hread] at hreadable
      cases hreadable

/-- No other segment is read. -/
theorem Segment.exists_error (hreadable : s.isReadable = false) : ∃ problem, s.read = .error problem := by
  rw [isReadable, Bool.or_eq_false_iff, bne_eq_false_iff_eq] at hreadable
  obtain ⟨hlook, hfails⟩ := hreadable
  rw [Segment.read, hlook]
  cases hread : readCondition s.span.stop s.tokens with
  | error problem => exact ⟨problem, rfl⟩
  | ok e =>
    rw [hread] at hfails
    cases hfails

/-- A blank segment has no references. -/
theorem Segment.eq_nil_of_isEmpty (h : Spell s.tokens es) (hempty : s.trimmedSpan.isEmpty = true) :
    es = [] := by
  have htrim : Text.trim s.text = [] := by
    rw [← Text.width_eq_zero]
    have hspan : s.trimmedSpan.start = s.trimmedSpan.stop := beq_iff_eq.1 hempty
    dsimp only [trimmedSpan, Span.ofSize] at hspan
    omega
  have hblank := Text.trim_eq_nil_iff.1 htrim
  rw [text] at hblank
  clear htrim hempty
  generalize s.tokens = ts at h hblank
  induction h with
  | nil => rfl
  | plain _ _ ih => exact ih fun c hc => hblank c (List.mem_append_right _ hc)
  | reference _ hsign =>
    have hdollar := hblank '$' (List.mem_flatMap.2 ⟨_, List.mem_cons_self, hsign⟩)
    cases hdollar

theorem Segment.references_item (h : Spell s.tokens es) {e : Expr} (he : e.references = es) :
    (s.item e).references = es := by
  rw [Segment.item]
  split
  · next hempty => rw [Segment.eq_nil_of_isEmpty h hempty, references_emptyItem]
  · rw [references_listItem, he]

/-! ## Values -/

/-- A token that is no semicolon is in the segment of what is behind it. -/
theorem exists_segmentsFrom_cons {t : Token} (ht : t.kind ≠ .semicolon) (stop start depth : Nat)
    (inQuote : Bool) (ts : List Token) : ∃ depth' inQuote',
      segmentsFrom stop start depth inQuote (t :: ts) =
        match segmentsFrom stop start depth' inQuote' ts with
        | [] => []
        | s :: segments => { s with tokens := t :: s.tokens } :: segments := by
  rw [segmentsFrom, if_neg fun h => ht h.1]
  exact ⟨_, _, rfl⟩

/-- No reference is split by a separator, so the segments share out what the tokens spell. -/
theorem exists_spell_segmentsFrom {ts : List Token} (h : Spell ts es) (stop start depth : Nat)
    (inQuote : Bool) : ∃ first segments part parts,
      segmentsFrom stop start depth inQuote ts = first :: segments ∧ Spell first.tokens part ∧
        List.Forall₂ (fun s part => Spell s.tokens part) segments parts ∧
        part ++ parts.flatten = es := by
  induction h generalizing start depth inQuote with
  | nil => exact ⟨_, [], [], [], rfl, .nil, .nil, rfl⟩
  | @plain t ts es hplain h ih =>
    rw [segmentsFrom]
    split
    · obtain ⟨first, segments, part, parts, hsegments, hfirst, hrest, rfl⟩ :=
        ih t.span.stop depth inQuote
      exact ⟨_, _, [], part :: parts, rfl, .nil, hsegments ▸ .cons hfirst hrest, rfl⟩
    · dsimp only
      obtain ⟨first, segments, part, parts, hsegments, hfirst, hrest, rfl⟩ := ih start _ _
      rw [hsegments]
      exact ⟨_, segments, part, parts, rfl, .plain hplain hfirst, hrest, rfl⟩
  | @reference o i c ts es hopen hsign hname hclose h ih =>
    obtain ⟨d, q, hfirst⟩ := exists_segmentsFrom_cons (t := o) (by rw [hopen]; decide) stop start depth
      inQuote (i :: c :: ts)
    obtain ⟨d', q', hsecond⟩ := exists_segmentsFrom_cons (t := i) (by rw [hname]; decide) stop start d
      q (c :: ts)
    obtain ⟨d'', q'', hthird⟩ := exists_segmentsFrom_cons (t := c) (by rw [hclose]; decide) stop start
      d' q' ts
    obtain ⟨first, segments, part, parts, hsegments, hspell, hrest, rfl⟩ := ih start d'' q''
    rw [hfirst, hsecond, hthird, hsegments]
    exact ⟨_, segments, _, parts, rfl, .reference hopen hsign hname hclose hspell, hrest, rfl⟩

/-- Segments that can be read are read as items that have their references. -/
theorem exists_readItemsOf {segments : List Segment} {parts : List (List Expr)}
    (h : List.Forall₂ (fun s part => Spell s.tokens part) segments parts)
    (hreadable : segments.all Segment.isReadable = true) :
    ∃ items, readItemsOf segments = .ok items ∧ referencesOfAll items = parts.flatten := by
  induction h with
  | nil => exact ⟨[], rfl, rfl⟩
  | @cons s part segments parts hs hrest ih =>
    obtain ⟨hfirst, hreadable⟩ := Bool.and_eq_true_iff.1 hreadable
    obtain ⟨e, he, hreferences⟩ := Segment.exists_read hs hfirst
    obtain ⟨items, hitems, hall⟩ := ih hreadable
    refine ⟨s.item e :: items, ?_, ?_⟩
    · rw [readItemsOf, he, hitems]
      rfl
    · rw [referencesOfAll_cons, Segment.references_item hs hreferences, hall, List.flatten_cons]

theorem exists_error_readItemsOf {segments : List Segment}
    (hreadable : segments.all Segment.isReadable = false) :
    ∃ problem, readItemsOf segments = .error problem := by
  induction segments with
  | nil => cases hreadable
  | cons s segments ih =>
    rw [readItemsOf]
    cases hread : s.read with
    | error problem => exact ⟨problem, rfl⟩
    | ok e =>
      have hfirst : s.isReadable = true := by
        by_contra hnot
        obtain ⟨problem, hproblem⟩ := Segment.exists_error (Bool.not_eq_true _ ▸ hnot)
        rw [hread] at hproblem
        cases hproblem
      rw [List.all_cons, hfirst, Bool.true_and] at hreadable
      obtain ⟨problem, hproblem⟩ := ih hreadable
      exact ⟨problem, by rw [hproblem]; rfl⟩

/-- Whether every segment of a value that looks like a condition is one. -/
def isReadable (t : Text) : Bool := (segments t).all Segment.isReadable

/-- **A value that can be read is read as a tree with the references that it spells.** -/
theorem exists_parseValue {t : Text} (h : Spell (tokens t) es) (hreadable : isReadable t = true) :
    ∃ e, parseValue t = .ok e ∧ e.references = es := by
  obtain ⟨first, rest, part, parts, hsegments, hfirst, hrest, rfl⟩ :=
    exists_spell_segmentsFrom h t.width 0 0 false
  rw [← segments] at hsegments
  rw [isReadable, hsegments] at hreadable
  rw [parseValue, hsegments]
  cases hrest with
  | nil =>
    rw [List.all_cons, Bool.and_eq_true] at hreadable
    obtain ⟨e, he, hreferences⟩ := Segment.exists_read hfirst hreadable.1
    exact ⟨e, he, hreferences.trans (List.append_nil _).symm⟩
  | cons hsecond hrest =>
    obtain ⟨items, hitems, hreferences⟩ :=
      exists_readItemsOf (.cons hfirst (.cons hsecond hrest)) hreadable
    dsimp only
    rw [hitems]
    refine ⟨_, rfl, ?_⟩
    rw [SimpleList.toExpr, references_list, hreferences, List.flatten_cons]

/-- No other value is read. -/
theorem exists_error_parseValue {t : Text} (hreadable : isReadable t = false) :
    ∃ problem, parseValue t = .error problem := by
  rw [isReadable] at hreadable
  unfold parseValue
  split
  · next s hsegments =>
    rw [hsegments, List.all_cons, List.all_nil, Bool.and_true] at hreadable
    exact Segment.exists_error hreadable
  · obtain ⟨problem, hproblem⟩ := exists_error_readItemsOf hreadable
    exact ⟨problem, by rw [hproblem]; rfl⟩

theorem isReadable_of_parseValue {t : Text} {e : Expr} (he : parseValue t = .ok e) :
    isReadable t = true := by
  by_contra hnot
  obtain ⟨problem, hproblem⟩ := exists_error_parseValue (Bool.not_eq_true _ ▸ hnot)
  rw [he] at hproblem
  cases hproblem

/-- What a value is read as has the references that the value spells. -/
theorem references_of_parseValue {t : Text} (h : Spell (tokens t) es) {e : Expr}
    (he : parseValue t = .ok e) : e.references = es := by
  obtain ⟨e', he', hreferences⟩ := exists_parseValue h (isReadable_of_parseValue he)
  obtain rfl : e = e' := Except.ok.inj (he.symm.trans he')
  exact hreferences

end ProjectFile.Expression
