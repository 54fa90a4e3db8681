import Mathlib.Data.List.Forall2
import ProjectFile.Expression.Reading

/-!
Reading is parametric in the tokens.

The readers ask a token for its kind and for its text; where it stands they only pass on. So tokens
that are related one by one, with the same kinds and texts, are read as trees that are related, by
every relation that each way of making a node keeps. `Congruence S R` says for a relation `S` of tokens
and a relation `R` of trees what there is to keep. `Alike` is what is kept from reader to reader, and
the readers that call one another are settled together (`parametric`).

A relation that holds of equal trees only is a property of trees: what is kept by each way of making a
node, out of tokens of some kinds, is true of all that is read.
-/

namespace ProjectFile.Expression

/-! ## What is related -/

section

variable (S : Token → Token → Prop)

/-- Whether two spans reach from related tokens of one kind to related tokens of another. -/
inductive Spans (first last : TokenKind) : Span → Span → Prop
  | intro {o o' c c' : Token} (hopen : S o o') (hfirst : o.kind = first) (hclose : S c c')
    (hlast : c.kind = last) : Spans first last ⟨o.start, c.span.stop⟩ ⟨o'.start, c'.span.stop⟩

/-- Whether two symbols are related identifiers. -/
inductive Names : Symbol → Symbol → Prop
  | intro {t u : Token} (h : S t u) (hkind : t.kind = .identifier) :
    Names ⟨t.span, t.text⟩ ⟨u.span, u.text⟩

/-- Whether a tree begins with a token that opens nothing. -/
inductive BeginsPlain (e : Expr) : Prop
  | intro {t u : Token} (h : S t u) (hkind : t.kind.opens = false) (hstart : e.span.start = t.start)

/-- Whether two trees that may be absent are related, and begin with no opener. -/
structure Operands (R : Expr → Expr → Prop) (e e' : Option Expr) : Prop where
  related : Option.Rel R e e'
  plain : ∀ x ∈ e, BeginsPlain S x

/-- Whether trees are related wherever they are made of related tokens and trees in the same way. -/
structure Congruence (R : Expr → Expr → Prop) : Prop where
  kind : ∀ {t u : Token}, S t u → t.kind = u.kind
  text : ∀ {t u : Token}, S t u → t.text = u.text
  plain : ∀ {t u : Token} {ps qs : List Expr}, S t u → List.Forall₂ R ps qs →
    List.Forall₂ R (prependText t ps) (prependText u qs)
  property : ∀ {s s' : Span} {n n' : Option Symbol} (isFunction : Bool),
    Spans S .propertyOpen .rightParen s s' → Option.Rel (Names S) n n' →
    R (.property s n isFunction) (.property s' n' isFunction)
  items : ∀ {s s' : Span} {n n' : Option Symbol} {e e' f f' : Option Expr},
    Spans S .itemOpen .rightParen s s' → Option.Rel (Names S) n n' → Operands S R e e' →
    Operands S R f f' → R (.items s n e f) (.items s' n' e' f')
  metadata : ∀ {s s' : Span} {n n' m m' : Option Symbol}, Spans S .metadataOpen .rightParen s s' →
    Option.Rel (Names S) n n' → Option.Rel (Names S) m m' → R (.metadata s n m) (.metadata s' n' m')
  quoted : ∀ {o o' c c' : Token} {ps qs : List Expr}, S o o' → S c c' → List.Forall₂ R ps qs →
    R (.quoted ⟨o.start, c.span.stop⟩ ps) (.quoted ⟨o'.start, c'.span.stop⟩ qs)
  call : ∀ {s s' : Span} {n n' : Symbol} {ps qs : List Expr}, Spans S .identifier .rightParen s s' →
    Names S n n' → List.Forall₂ R ps qs → R (.call s n ps) (.call s' n' qs)
  group : ∀ {s s' : Span} {e e' : Expr}, Spans S .leftParen .rightParen s s' → R e e' →
    R (.group s e) (.group s' e')
  concat : ∀ {s s' : Span} {p p' q q' : Expr} {ps qs : List Expr}, R p p' → R q q' →
    List.Forall₂ R ps qs → R (ofParts s (p :: q :: ps)) (ofParts s' (p' :: q' :: qs))
  compare : ∀ {e e' f f' : Expr} (op : Comparison), R e e' → R f f' →
    R (.compare (e.span.join f.span) op e f) (.compare (e'.span.join f'.span) op e' f')
  negation : ∀ {t u : Token} {e e' : Expr}, S t u → R e e' →
    R (.negation ⟨t.start, e.span.stop⟩ e) (.negation ⟨u.start, e'.span.stop⟩ e')
  junction : ∀ {e e' f f' : Expr} (op : Junction), R e e' → R f f' →
    R (.junction (e.span.join f.span) op e f) (.junction (e'.span.join f'.span) op e' f')

/-- Whether two readers answer alike: both fail, or what they read is related and so are the tokens
that they leave. -/
def Alike {α : Type} (Q : α → α → Prop) : Except ParseError (Taken α) → Except ParseError (Taken α) → Prop
  | .ok a, .ok b => Q a.1 b.1 ∧ List.Forall₂ S a.2 b.2
  | .error _, .error _ => True
  | _, _ => False

end

variable {S : Token → Token → Prop} {R : Expr → Expr → Prop}

/-- One reader after another. -/
theorem Alike.bind {α β : Type} {Q : α → α → Prop} {Q' : β → β → Prop}
    {x y : Except ParseError (Taken α)} {next next' : Taken α → Except ParseError (Taken β)}
    (h : Alike S Q x y)
    (hnext : ∀ a b rest rest', Q a b → List.Forall₂ S rest rest' →
      Alike S Q' (next (a, rest)) (next' (b, rest'))) : Alike S Q' (x >>= next) (y >>= next') := by
  match x, y, h with
  | .ok a, .ok b, h => exact hnext _ _ _ _ h.1 h.2
  | .error _, .error _, _ => trivial

theorem Alike.mono {α : Type} {Q Q' : α → α → Prop} {x y : Except ParseError (Taken α)}
    (h : Alike S Q x y) (hQ : ∀ a b, Q a b → Q' a b) : Alike S Q' x y := by
  match x, y, h with
  | .ok a, .ok b, h => exact ⟨hQ _ _ h.1, h.2⟩
  | .error _, .error _, _ => trivial

section

variable {stop stop' : Nat} {ts us : List Token} {t u o o' : Token}

namespace Congruence

variable (hR : Congruence S R)

include hR

/-- The only part of a run, or all of them back to back. -/
theorem ofParts {ps qs : List Expr} (h : List.Forall₂ R ps qs) (hne : ps ≠ []) (s s' : Span) :
    R (ofParts s ps) (Expression.ofParts s' qs) := by
  cases h with
  | nil => exact absurd rfl hne
  | cons hp hps =>
    cases hps with
    | nil => exact hp
    | cons hq hps => exact hR.concat hp hq hps

/-! ## Tokens -/

theorem isWord_eq (h : S t u) (word : Text) : t.isWord word = u.isWord word := by
  rw [Token.isWord, Token.isWord, hR.kind h, hR.text h]

theorem skipSpace (h : List.Forall₂ S ts us) :
    List.Forall₂ S (skipSpace ts) (Expression.skipSpace us) := by
  induction h with
  | nil => exact .nil
  | cons hfirst hrest ih =>
    rw [Expression.skipSpace, Expression.skipSpace, List.dropWhile_cons, List.dropWhile_cons,
      hR.kind hfirst]
    split
    · exact ih
    · exact .cons hfirst hrest

theorem takeSymbol (h : List.Forall₂ S ts us) :
    Option.Rel (Names S) (takeSymbol ts).1 (Expression.takeSymbol us).1 ∧
      List.Forall₂ S (takeSymbol ts).2 (Expression.takeSymbol us).2 := by
  cases h with
  | nil => exact ⟨.none, .nil⟩
  | cons hfirst hrest =>
    rw [Expression.takeSymbol, Expression.takeSymbol, ← hR.kind hfirst]
    split
    · next hkind => exact ⟨.some (.intro hfirst hkind), hrest⟩
    · exact ⟨.none, .cons hfirst hrest⟩

/-- A name with space around it. -/
theorem named (h : List.Forall₂ S ts us) :
    Option.Rel (Names S) (Expression.takeSymbol (Expression.skipSpace ts)).1
        (Expression.takeSymbol (Expression.skipSpace us)).1 ∧
      List.Forall₂ S (Expression.skipSpace (Expression.takeSymbol (Expression.skipSpace ts)).2)
        (Expression.skipSpace (Expression.takeSymbol (Expression.skipSpace us)).2) :=
  ⟨(hR.takeSymbol (hR.skipSpace h)).1, hR.skipSpace (hR.takeSymbol (hR.skipSpace h)).2⟩

theorem beginsCall_eq (h : List.Forall₂ S ts us) : beginsCall ts = beginsCall us := by
  cases h with
  | nil => rfl
  | cons hfirst hrest =>
    cases hrest with
    | nil => rfl
    | cons hsecond _ => rw [beginsCall, beginsCall, hR.kind hfirst, hR.kind hsecond]

theorem head?_kind_eq (h : List.Forall₂ S ts us) :
    ts.head?.map Token.kind = us.head?.map Token.kind := by
  cases h with
  | nil => rfl
  | cons hfirst _ => exact congrArg some (hR.kind hfirst)

end Congruence

theorem forall₂_drop_one (h : List.Forall₂ S ts us) : List.Forall₂ S (ts.drop 1) (us.drop 1) := by
  cases h with
  | nil => exact .nil
  | cons _ hrest => exact hrest

theorem kind_of_beginsCall (h : beginsCall (t :: ts) = true) : t.kind = .identifier := by
  cases ts with
  | nil => cases h
  | cons u us =>
    rw [beginsCall, Bool.and_eq_true, beq_iff_eq] at h
    exact h.1

theorem isSome_eq_of_rel {n n' : Option Symbol} (h : Option.Rel (Names S) n n') :
    n.isSome = n'.isSome := by
  cases h <;> rfl

/-! ## What does not call itself -/

variable (hR : Congruence S R) {first : TokenKind} (hopen : S o o') (hfirst : o.kind = first)

include hR hopen hfirst

theorem alike_closeConstruct (h : List.Forall₂ S ts us) (construct : Construct) :
    Alike S (fun a b => Spans S first .rightParen ⟨o.start, a⟩ ⟨o'.start, b⟩)
      (closeConstruct stop construct ts) (closeConstruct stop' construct us) := by
  cases h with
  | nil => trivial
  | cons hlast hrest =>
    rw [closeConstruct, closeConstruct, ← hR.kind hlast]
    split
    · next hkind => exact ⟨.intro hopen hfirst hlast hkind, hrest⟩
    · trivial

theorem alike_closeParenthesis (h : List.Forall₂ S ts us) :
    Alike S (fun a b => Spans S first .rightParen ⟨o.start, a⟩ ⟨o'.start, b⟩)
      (closeParenthesis stop ts) (closeParenthesis stop' us) := by
  cases h with
  | nil => trivial
  | cons hlast hrest =>
    rw [closeParenthesis, closeParenthesis, ← hR.kind hlast]
    split
    · next hkind => exact ⟨.intro hopen hfirst hlast hkind, hrest⟩
    · trivial

theorem alike_skipBalanced (h : List.Forall₂ S ts us) (depth : Nat) (inQuote : Bool) :
    (skipBalanced depth inQuote ts = none ∧ skipBalanced depth inQuote us = none) ∨
      ∃ a b rest rest', skipBalanced depth inQuote ts = some (a, rest) ∧
        skipBalanced depth inQuote us = some (b, rest') ∧
        Spans S first .rightParen ⟨o.start, a⟩ ⟨o'.start, b⟩ ∧ List.Forall₂ S rest rest' := by
  induction h generalizing depth inQuote with
  | nil => exact .inl ⟨rfl, rfl⟩
  | cons hlast hrest ih =>
    rw [skipBalanced, skipBalanced, ← hR.kind hlast]
    split
    · exact ih _ _
    split
    · exact ih _ _
    split
    · exact ih _ _
    split
    · next hkind =>
      split
      · exact .inr ⟨_, _, _, _, rfl, rfl, .intro hopen hfirst hlast hkind, hrest⟩
      · exact ih _ _
    · exact ih _ _

end

section

variable {stop stop' : Nat} {ts us : List Token} {t u o o' : Token}

variable (hR : Congruence S R)

include hR

theorem alike_readProperty (hopen : S o o') (hkind : o.kind = .propertyOpen)
    (h : List.Forall₂ S ts us) :
    Alike S R (readProperty stop o.start ts) (readProperty stop' o'.start us) := by
  obtain ⟨hname, hrest⟩ := hR.named h
  unfold readProperty
  extract_lets named rest isFunction named' rest' isFunction'
  have hfunction : isFunction = isFunction' := by
    have hsome : named.1.isSome = named'.1.isSome := isSome_eq_of_rel hname
    have hnone : named.1.isNone = named'.1.isNone := by
      rw [← Option.not_isSome, ← Option.not_isSome, hsome]
    have hrest : List.Forall₂ S rest rest' := hrest
    dsimp only [isFunction, isFunction']
    revert hrest
    generalize rest = left
    generalize rest' = left'
    intro hrest
    cases hrest with
    | nil => rfl
    | cons hfirst _ =>
      dsimp only
      rw [← hR.kind hfirst, ← hR.text hfirst, hsome, hnone]
  rw [← hfunction]
  split
  · rcases alike_skipBalanced hR hopen hkind hrest 1 false with
      ⟨hnone, hnone'⟩ | ⟨a, b, left, left', hskip, hskip', hspan, hleft⟩
    · rw [hnone, hnone']
      trivial
    · rw [hskip, hskip']
      exact ⟨hR.property true hspan hname, hleft⟩
  · exact (alike_closeConstruct hR hopen hkind hrest _).bind fun _ _ _ _ hspan hleft =>
      ⟨hR.property false hspan hname, hleft⟩

theorem alike_readMetadata (hopen : S o o') (hkind : o.kind = .metadataOpen)
    (h : List.Forall₂ S ts us) :
    Alike S R (readMetadata stop o.start ts) (readMetadata stop' o'.start us) := by
  obtain ⟨hname, hrest⟩ := hR.named h
  unfold readMetadata
  dsimp only
  generalize skipSpace (takeSymbol (skipSpace ts)).2 = rest at hrest
  generalize skipSpace (takeSymbol (skipSpace us)).2 = rest' at hrest
  cases hrest with
  | nil => trivial
  | cons hfirst hbehind =>
    dsimp only
    rw [← hR.kind hfirst]
    split
    · obtain ⟨hname', hlast⟩ := hR.named hbehind
      exact (alike_closeConstruct hR hopen hkind hlast _).bind fun _ _ _ _ hspan hleft =>
        ⟨hR.metadata hspan hname hname', hleft⟩
    · exact (alike_closeConstruct hR hopen hkind (.cons hfirst hbehind) _).bind
        fun _ _ _ _ hspan hleft => ⟨hR.metadata hspan .none hname, hleft⟩

end

/-! ## What calls itself -/

/-- What the readers that may still make `n` calls keep. -/
structure Parametric (S : Token → Token → Prop) (R : Expr → Expr → Prop) (stop stop' n : Nat) :
    Prop where
  run : ∀ {ends : TokenKind → Bool} {ts us : List Token}, List.Forall₂ S ts us →
    Alike S (List.Forall₂ R) (readRun stop ends n ts) (readRun stop' ends n us)
  items : ∀ {o o' : Token} {ts us : List Token}, S o o' → o.kind = .itemOpen → List.Forall₂ S ts us →
    Alike S R (readItems stop n o.start ts) (readItems stop' n o'.start us)
  transform : ∀ {ts us : List Token}, List.Forall₂ S ts us →
    Alike S (Operands S R) (readTransform stop n ts) (readTransform stop' n us)
  separator : ∀ {ts us : List Token}, List.Forall₂ S ts us →
    Alike S (Operands S R) (readSeparator stop n ts) (readSeparator stop' n us)
  quoted : ∀ {o o' : Token} {ts us : List Token}, S o o' → List.Forall₂ S ts us →
    Alike S (fun e e' => R e e' ∧ e.span.start = o.start) (readQuoted stop n o.start ts)
      (readQuoted stop' n o'.start us)
  disjunction : ∀ {ts us : List Token}, List.Forall₂ S ts us →
    Alike S R (readOr stop n ts) (readOr stop' n us)
  moreDisjunction : ∀ {left left' : Expr} {ts us : List Token}, R left left' →
    List.Forall₂ S ts us → Alike S R (readMoreOr stop n left ts) (readMoreOr stop' n left' us)
  conjunction : ∀ {ts us : List Token}, List.Forall₂ S ts us →
    Alike S R (readAnd stop n ts) (readAnd stop' n us)
  moreConjunction : ∀ {left left' : Expr} {ts us : List Token}, R left left' →
    List.Forall₂ S ts us → Alike S R (readMoreAnd stop n left ts) (readMoreAnd stop' n left' us)
  negation : ∀ {ts us : List Token}, List.Forall₂ S ts us →
    Alike S R (readNot stop n ts) (readNot stop' n us)
  operand : ∀ {t u : Token} {ts us : List Token}, List.Forall₂ S (t :: ts) (u :: us) →
    Alike S R (readOperand stop n t ts) (readOperand stop' n u us)
  arguments : ∀ {ts us : List Token}, List.Forall₂ S ts us →
    Alike S (List.Forall₂ R) (readArguments stop n ts) (readArguments stop' n us)
  moreArguments : ∀ {ts us : List Token}, List.Forall₂ S ts us →
    Alike S (List.Forall₂ R) (readMoreArguments stop n ts) (readMoreArguments stop' n us)

section

variable (hR : Congruence S R) {stop stop' n : Nat} (hn : Parametric S R stop stop' n)
  {ts us : List Token} {t u o o' : Token}

include hR hn

/-! ### Text runs and item references -/

omit hR in
/-- A run with a tree in front of it. -/
theorem alike_partAndRun {ends : TokenKind → Bool} {e e' : Expr} (he : R e e')
    (h : List.Forall₂ S ts us) :
    Alike S (List.Forall₂ R)
      (do
        let (parts, rest) ← readRun stop ends n ts
        return (e :: parts, rest))
      (do
        let (parts, rest) ← readRun stop' ends n us
        return (e' :: parts, rest)) :=
  (hn.run h).bind fun _ _ _ _ hparts hleft => ⟨.cons he hparts, hleft⟩

theorem alike_readRun {ends : TokenKind → Bool} (h : List.Forall₂ S ts us) :
    Alike S (List.Forall₂ R) (readRun stop ends (n + 1) ts) (readRun stop' ends (n + 1) us) := by
  cases h with
  | nil =>
    rw [readRun, readRun]
    exact ⟨.nil, .nil⟩
  | cons hfirst hrest =>
    rw [readRun, readRun, ← hR.kind hfirst]
    split
    · exact ⟨.nil, .cons hfirst hrest⟩
    split
    case h_1 hkind =>
      exact (alike_readProperty hR hfirst hkind hrest).bind fun _ _ _ _ hpart hleft =>
        alike_partAndRun hn hpart hleft
    case h_2 hkind =>
      exact (hn.items hfirst hkind hrest).bind fun _ _ _ _ hpart hleft =>
        alike_partAndRun hn hpart hleft
    case h_3 hkind =>
      exact (alike_readMetadata hR hfirst hkind hrest).bind fun _ _ _ _ hpart hleft =>
        alike_partAndRun hn hpart hleft
    case h_4 =>
      exact (hn.run hrest).bind fun _ _ _ _ hparts hleft => ⟨hR.plain hfirst hparts, hleft⟩

theorem alike_readItems (hopen : S o o') (hkind : o.kind = .itemOpen) (h : List.Forall₂ S ts us) :
    Alike S R (readItems stop (n + 1) o.start ts) (readItems stop' (n + 1) o'.start us) := by
  obtain ⟨hname, hnamed⟩ := hR.named h
  rw [readItems, readItems]
  refine (hn.transform hnamed).bind fun _ _ _ _ htransform hrest => ?_
  refine (hn.separator hrest).bind fun _ _ _ _ hseparator hrest => ?_
  exact (alike_closeConstruct hR hopen hkind hrest _).bind fun _ _ _ _ hspan hleft =>
    ⟨hR.items hspan hname htransform hseparator, hleft⟩

/-! ### Quoted strings, transforms and separators -/

theorem alike_readQuoted (hopen : S o o') (h : List.Forall₂ S ts us) :
    Alike S (fun e e' => R e e' ∧ e.span.start = o.start) (readQuoted stop (n + 1) o.start ts)
      (readQuoted stop' (n + 1) o'.start us) := by
  rw [readQuoted, readQuoted]
  refine (hn.run h).bind fun _ _ _ _ hparts hrest => ?_
  cases hrest with
  | nil => trivial
  | cons hlast hleft => exact ⟨⟨hR.quoted hopen hlast hparts, rfl⟩, hleft⟩

/-- A quoted string with space behind it. -/
theorem alike_spacedQuoted (hopen : S o o') (hkind : o.kind = .quote) (h : List.Forall₂ S ts us) :
    Alike S (Operands S R)
      (do
        let (e, rest) ← readQuoted stop n o.start ts
        return (some e, skipSpace rest))
      (do
        let (e, rest) ← readQuoted stop' n o'.start us
        return (some e, skipSpace rest)) := by
  refine (hn.quoted hopen h).bind fun e e' _ _ he hleft => ⟨⟨.some he.1, ?_⟩, hR.skipSpace hleft⟩
  rintro x ⟨⟩
  exact .intro hopen (by rw [hkind]; rfl) he.2

theorem alike_readTransform (h : List.Forall₂ S ts us) :
    Alike S (Operands S R) (readTransform stop (n + 1) ts) (readTransform stop' (n + 1) us) := by
  have hnone : Operands S R none none := ⟨.none, nofun⟩
  cases h with
  | nil =>
    rw [readTransform, readTransform]
    exact ⟨hnone, .nil⟩
  | @cons t u ts us hfirst hrest =>
    have hskip := hR.skipSpace hrest
    rw [readTransform, readTransform, ← hR.kind hfirst]
    generalize skipSpace ts = ts' at hskip
    generalize skipSpace us = us' at hskip
    split
    · exact ⟨hnone, .cons hfirst hrest⟩
    cases hskip with
    | nil => trivial
    | cons hopen hbehind =>
      have hcall := hR.beginsCall_eq (.cons hopen hbehind)
      dsimp only
      rw [← hR.kind hopen, ← hcall]
      split
      · next hkind => exact alike_spacedQuoted hR hn hopen hkind hbehind
      split
      · next hbegins =>
        have hkind := kind_of_beginsCall hbegins
        refine (hn.arguments (forall₂_drop_one hbehind)).bind fun _ _ _ _ harguments hrest => ?_
        refine (alike_closeConstruct hR hopen hkind hrest _).bind fun _ _ _ _ hspan hleft =>
          ⟨⟨.some (hR.call hspan (.intro hopen hkind) harguments), ?_⟩, hR.skipSpace hleft⟩
        rintro x ⟨⟩
        exact .intro hopen (by rw [hkind]; rfl) rfl
      · trivial

theorem alike_readSeparator (h : List.Forall₂ S ts us) :
    Alike S (Operands S R) (readSeparator stop (n + 1) ts) (readSeparator stop' (n + 1) us) := by
  have hnone : Operands S R none none := ⟨.none, nofun⟩
  cases h with
  | nil =>
    rw [readSeparator, readSeparator]
    exact ⟨hnone, .nil⟩
  | @cons t u ts us hfirst hrest =>
    have hskip := hR.skipSpace hrest
    rw [readSeparator, readSeparator, ← hR.kind hfirst]
    generalize skipSpace ts = ts' at hskip
    generalize skipSpace us = us' at hskip
    split
    · exact ⟨hnone, .cons hfirst hrest⟩
    cases hskip with
    | nil => trivial
    | cons hopen hbehind =>
      dsimp only
      rw [← hR.kind hopen]
      split
      · next hkind => exact alike_spacedQuoted hR hn hopen hkind hbehind
      · trivial

/-! ### Conditions -/

omit hR in
theorem alike_readOr (h : List.Forall₂ S ts us) :
    Alike S R (readOr stop (n + 1) ts) (readOr stop' (n + 1) us) := by
  rw [readOr, readOr]
  exact (hn.conjunction h).bind fun _ _ _ _ hfirst hrest => hn.moreDisjunction hfirst hrest

theorem alike_readMoreOr {left left' : Expr} (hleft : R left left') (h : List.Forall₂ S ts us) :
    Alike S R (readMoreOr stop (n + 1) left ts) (readMoreOr stop' (n + 1) left' us) := by
  have hskip := hR.skipSpace h
  rw [readMoreOr, readMoreOr]
  generalize skipSpace ts = ts' at hskip
  generalize skipSpace us = us' at hskip
  cases hskip with
  | nil => exact ⟨hleft, .nil⟩
  | cons hfirst hrest =>
    dsimp only
    rw [← hR.isWord_eq hfirst]
    split
    · refine (hn.conjunction hrest).bind fun _ _ _ _ hright hrest => ?_
      exact hn.moreDisjunction (hR.junction _ hleft hright) hrest
    · exact ⟨hleft, .cons hfirst hrest⟩

omit hR in
theorem alike_readAnd (h : List.Forall₂ S ts us) :
    Alike S R (readAnd stop (n + 1) ts) (readAnd stop' (n + 1) us) := by
  rw [readAnd, readAnd]
  exact (hn.negation h).bind fun _ _ _ _ hfirst hrest => hn.moreConjunction hfirst hrest

theorem alike_readMoreAnd {left left' : Expr} (hleft : R left left') (h : List.Forall₂ S ts us) :
    Alike S R (readMoreAnd stop (n + 1) left ts) (readMoreAnd stop' (n + 1) left' us) := by
  have hskip := hR.skipSpace h
  rw [readMoreAnd, readMoreAnd]
  generalize skipSpace ts = ts' at hskip
  generalize skipSpace us = us' at hskip
  cases hskip with
  | nil => exact ⟨hleft, .nil⟩
  | cons hfirst hrest =>
    dsimp only
    rw [← hR.isWord_eq hfirst]
    split
    · refine (hn.negation hrest).bind fun _ _ _ _ hright hrest => ?_
      exact hn.moreConjunction (hR.junction _ hleft hright) hrest
    · exact ⟨hleft, .cons hfirst hrest⟩

/-- What is behind the left side of a comparison, or behind a term that is none. -/
theorem alike_comparison {left left' : Expr} (hleft : R left left') (h : List.Forall₂ S ts us) :
    Alike S R
      (match skipSpace ts with
      | [] => .ok (left, [])
      | u :: rest =>
        match u.kind, skipSpace rest with
        | .comparison _, [] => .error ⟨.missingOperand, stop⟩
        | .comparison op, v :: rest => do
          let (right, rest) ← readOperand stop n v rest
          return (.compare (left.span.join right.span) op left right, rest)
        | _, _ => .ok (left, u :: rest))
      (match skipSpace us with
      | [] => .ok (left', [])
      | u :: rest =>
        match u.kind, skipSpace rest with
        | .comparison _, [] => .error ⟨.missingOperand, stop'⟩
        | .comparison op, v :: rest => do
          let (right, rest) ← readOperand stop' n v rest
          return (.compare (left'.span.join right.span) op left' right, rest)
        | _, _ => .ok (left', u :: rest)) := by
  have hskip := hR.skipSpace h
  generalize skipSpace ts = ts' at hskip
  generalize skipSpace us = us' at hskip
  cases hskip with
  | nil => exact ⟨hleft, .nil⟩
  | @cons t u ts us hfirst hrest =>
    have hunchanged := And.intro hleft (List.Forall₂.cons hfirst hrest)
    have hskip := hR.skipSpace hrest
    dsimp only
    rw [← hR.kind hfirst]
    generalize skipSpace ts = ts' at hskip
    generalize skipSpace us = us' at hskip
    cases t.kind with
    | comparison op =>
      cases hskip with
      | nil => trivial
      | cons hsecond hrest =>
        exact (hn.operand (.cons hsecond hrest)).bind fun _ _ _ _ hright hrest =>
          ⟨hR.compare op hleft hright, hrest⟩
    | _ => exact hunchanged

theorem alike_readNot (h : List.Forall₂ S ts us) :
    Alike S R (readNot stop (n + 1) ts) (readNot stop' (n + 1) us) := by
  have hskip := hR.skipSpace h
  rw [readNot, readNot]
  generalize skipSpace ts = ts' at hskip
  generalize skipSpace us = us' at hskip
  cases hskip with
  | nil => trivial
  | cons hfirst hrest =>
    dsimp only
    rw [← hR.kind hfirst]
    split
    · exact (hn.negation hrest).bind fun _ _ _ _ hoperand hleft =>
        ⟨hR.negation hfirst hoperand, hleft⟩
    · exact (hn.operand (.cons hfirst hrest)).bind fun _ _ _ _ hleft hrest =>
        alike_comparison hR hn hleft hrest

theorem alike_readOperand (h : List.Forall₂ S (t :: ts) (u :: us)) :
    Alike S R (readOperand stop (n + 1) t ts) (readOperand stop' (n + 1) u us) := by
  have hcall := hR.beginsCall_eq h
  cases h with
  | cons hopen hrest =>
    rw [readOperand, readOperand, ← hR.kind hopen, ← hcall, ← hR.isWord_eq hopen,
      ← hR.isWord_eq hopen]
    split
    · exact (hn.quoted hopen hrest).mono fun _ _ he => he.1
    split
    · next hkind =>
      refine (hn.disjunction hrest).bind fun _ _ _ _ hinner hrest => ?_
      exact (alike_closeParenthesis hR hopen hkind hrest).bind fun _ _ _ _ hspan hleft =>
        ⟨hR.group hspan hinner, hleft⟩
    split
    · next hbegins =>
      have hkind := kind_of_beginsCall hbegins
      refine (hn.arguments (forall₂_drop_one hrest)).bind fun _ _ _ _ harguments hrest => ?_
      exact (alike_closeParenthesis hR hopen hkind hrest).bind fun _ _ _ _ hspan hleft =>
        ⟨hR.call hspan (.intro hopen hkind) harguments, hleft⟩
    split
    · trivial
    · refine (hn.run (.cons hopen hrest)).bind fun parts parts' _ _ hparts hleft => ?_
      cases hparts with
      | nil => trivial
      | cons hpart hparts => exact ⟨hR.ofParts (.cons hpart hparts) nofun _ _, hleft⟩

theorem alike_readArguments (h : List.Forall₂ S ts us) :
    Alike S (List.Forall₂ R) (readArguments stop (n + 1) ts) (readArguments stop' (n + 1) us) := by
  have hskip := hR.skipSpace h
  rw [readArguments, readArguments, ← hR.head?_kind_eq hskip]
  split
  · exact ⟨.nil, hskip⟩
  · exact hn.moreArguments hskip

theorem alike_readMoreArguments (h : List.Forall₂ S ts us) :
    Alike S (List.Forall₂ R) (readMoreArguments stop (n + 1) ts)
      (readMoreArguments stop' (n + 1) us) := by
  rw [readMoreArguments, readMoreArguments]
  refine (hn.disjunction h).bind fun _ _ _ _ hargument hrest => ?_
  cases hrest with
  | nil => exact ⟨.cons hargument .nil, .nil⟩
  | cons hfirst hrest =>
    dsimp only
    rw [← hR.kind hfirst]
    split
    · exact (hn.moreArguments hrest).bind fun _ _ _ _ harguments hleft =>
        ⟨.cons hargument harguments, hleft⟩
    · exact ⟨.cons hargument .nil, .cons hfirst hrest⟩

end

/-- Readers that may make no calls keep everything. -/
theorem parametric_zero (S : Token → Token → Prop) (R : Expr → Expr → Prop) (stop stop' : Nat) :
    Parametric S R stop stop' 0 where
  run h := by
    cases h with
    | nil =>
      rw [readRun, readRun]
      exact ⟨.nil, .nil⟩
    | cons => trivial
  transform h := by
    cases h with
    | nil =>
      rw [readTransform, readTransform]
      exact ⟨⟨.none, nofun⟩, .nil⟩
    | cons => trivial
  separator h := by
    cases h with
    | nil =>
      rw [readSeparator, readSeparator]
      exact ⟨⟨.none, nofun⟩, .nil⟩
    | cons => trivial
  items _ _ _ := trivial
  quoted _ _ := trivial
  disjunction _ := trivial
  moreDisjunction _ _ := trivial
  conjunction _ := trivial
  moreConjunction _ _ := trivial
  negation _ := trivial
  operand _ := trivial
  arguments _ := trivial
  moreArguments _ := trivial

/-- **Related tokens are read as related trees**, however many calls the readers may make. -/
theorem parametric (hR : Congruence S R) (stop stop' n : Nat) : Parametric S R stop stop' n := by
  induction n with
  | zero => exact parametric_zero S R stop stop'
  | succ n ih =>
    exact {
      run := alike_readRun hR ih
      items := alike_readItems hR ih
      transform := alike_readTransform hR ih
      separator := alike_readSeparator hR ih
      quoted := alike_readQuoted hR ih
      disjunction := alike_readOr ih
      moreDisjunction := alike_readMoreOr hR ih
      conjunction := alike_readAnd ih
      moreConjunction := alike_readMoreAnd hR ih
      negation := alike_readNot hR ih
      operand := alike_readOperand hR ih
      arguments := alike_readArguments hR ih
      moreArguments := alike_readMoreArguments hR ih }

/-! ## Segments -/

/-- Whether two readings of a whole segment give related trees, or both fail. -/
def Related (R : Expr → Expr → Prop) : Except ParseError Expr → Except ParseError Expr → Prop
  | .ok e, .ok e' => R e e'
  | .error _, .error _ => True
  | _, _ => False

section

variable (hR : Congruence S R) {ts us : List Token} (h : List.Forall₂ S ts us)

include hR h

theorem related_readCondition (stop stop' : Nat) :
    Related R (readCondition stop ts) (readCondition stop' us) := by
  have halike := (parametric hR stop stop' (stepLimit ts)).disjunction h
  have hlimit : stepLimit ts = stepLimit us := by rw [stepLimit, stepLimit, h.length_eq]
  rw [readCondition, readCondition, ← hlimit]
  generalize readOr stop (stepLimit ts) ts = x at halike
  generalize readOr stop' (stepLimit ts) us = y at halike
  match x, y, halike with
  | .error _, .error _, _ => trivial
  | .ok (e, rest), .ok (e', rest'), ⟨he, hrest⟩ =>
    cases hrest with
    | nil => exact he
    | cons => trivial

theorem related_readText {s s' : Span} (hempty : R (.literal s []) (.literal s' [])) :
    Related R (readText s ts) (readText s' us) := by
  have halike : Alike S (List.Forall₂ R) (readRun s.stop (fun _ => false) (stepLimit ts) ts)
      (readRun s'.stop (fun _ => false) (stepLimit ts) us) :=
    (parametric hR s.stop s'.stop (stepLimit ts)).run h
  have hlimit : stepLimit ts = stepLimit us := by rw [stepLimit, stepLimit, h.length_eq]
  rw [readText, readText, ← hlimit]
  generalize readRun s.stop (fun _ => false) (stepLimit ts) ts = x at halike
  generalize readRun s'.stop (fun _ => false) (stepLimit ts) us = y at halike
  match x, y, halike with
  | .error _, .error _, _ => trivial
  | .ok (parts, _), .ok (parts', _), ⟨hparts, _⟩ =>
    cases hparts with
    | nil => exact hempty
    | cons hpart hparts => exact hR.ofParts (.cons hpart hparts) nofun _ _

theorem hasOperator_eq (spaced : Bool) (depth : Nat) (inQuote : Bool) :
    hasOperator spaced depth inQuote ts = hasOperator spaced depth inQuote us := by
  induction h generalizing spaced depth inQuote with
  | nil => rfl
  | cons hfirst hrest ih =>
    simp only [hasOperator, hR.kind hfirst, hR.isWord_eq hfirst, hR.head?_kind_eq hrest, ih]

theorem lookOf_eq : lookOf ts = lookOf us := by
  have hskip := hR.skipSpace h
  have hoperator := hasOperator_eq hR h false 0 false
  rw [lookOf, lookOf, ← hoperator]
  generalize skipSpace ts = ts' at hskip
  generalize skipSpace us = us' at hskip
  cases hskip with
  | nil => rfl
  | cons hfirst hrest =>
    have hcall := hR.beginsCall_eq (.cons hfirst hrest)
    dsimp only
    rw [hR.kind hfirst, hcall]

end

/-- **Segments with related tokens are read alike.** -/
theorem Segment.related_read (hR : Congruence S R) {s s' : Segment}
    (h : List.Forall₂ S s.tokens s'.tokens)
    (hempty : R (.literal s.span []) (.literal s'.span [])) : Related R s.read s'.read := by
  have hcondition := related_readCondition hR h s.span.stop s'.span.stop
  have htext := related_readText hR h hempty
  rw [read, read, ← lookOf_eq hR h]
  cases lookOf s.tokens with
  | condition => exact hcondition
  | text => exact htext
  | operators =>
    dsimp only
    generalize readCondition s.span.stop s.tokens = x at hcondition
    generalize readCondition s'.span.stop s'.tokens = y at hcondition
    match x, y, hcondition with
    | .ok _, .ok _, he => exact he
    | .error _, .error _, _ => exact htext

end ProjectFile.Expression
