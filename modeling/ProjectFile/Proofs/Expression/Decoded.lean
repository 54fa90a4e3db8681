import ProjectFile.Proofs.Expression.WrittenCondition

/-!
Readers of tokens with other texts.

`Matched` says of two lists of tokens that they are of the same kinds, and that the texts of the one
are those of the other decoded by some function. Reading looks at the text of a token only where it
is an identifier or has no meaning, so matched tokens are read alike: both are refused, or the trees
are the same where the literals of the first are decoded (`map_spanless_readCondition`).

`Agree` is what is kept from reader to reader. The readers that call one another agree together, by
induction on the calls they may still make (`agrees`).
-/

namespace ProjectFile.Expression

/-! ## Trees -/

namespace Expr

mutual

/-- The tree with the values of all its literals changed by a function. -/
def mapLiteral (f : Text → Text) : Expr → Expr
  | .literal s value => .literal s (f value)
  | .symbol s => .symbol s
  | .property s name isFunction => .property s name isFunction
  | .items s itemType transform separator =>
    .items s itemType (mapLiteralOption f transform) (mapLiteralOption f separator)
  | .metadata s itemType name => .metadata s itemType name
  | .quoted s parts => .quoted s (mapLiteralAll f parts)
  | .call s function arguments => .call s function (mapLiteralAll f arguments)
  | .group s inner => .group s (inner.mapLiteral f)
  | .concat s parts => .concat s (mapLiteralAll f parts)
  | .compare s op left right => .compare s op (left.mapLiteral f) (right.mapLiteral f)
  | .negation s operand => .negation s (operand.mapLiteral f)
  | .junction s op left right => .junction s op (left.mapLiteral f) (right.mapLiteral f)
  | .list s entries => .list s (mapLiteralAll f entries)
  | .listItem s segment value expression => .listItem s segment value (expression.mapLiteral f)
  | .emptyItem s => .emptyItem s

/-- Trees with the values of all their literals changed. -/
def mapLiteralAll (f : Text → Text) : List Expr → List Expr
  | [] => []
  | e :: es => e.mapLiteral f :: mapLiteralAll f es

/-- A tree that may be absent with the values of its literals changed. -/
def mapLiteralOption (f : Text → Text) : Option Expr → Option Expr
  | none => none
  | some e => some (e.mapLiteral f)

end

/-- The tree with nothing known of where it stands. -/
def spanless (e : Expr) : Expr := e.mapSpan fun _ => default

/-- Whether a tree is another one with decoded literals, wherever they stand. -/
def Decodes (f : Text → Text) (e e' : Expr) : Prop := (e.mapLiteral f).spanless = e'.spanless

def DecodesAll (f : Text → Text) (es es' : List Expr) : Prop :=
  mapSpanAll (fun _ => default) (mapLiteralAll f es) = mapSpanAll (fun _ => default) es'

def DecodesOption (f : Text → Text) (e e' : Option Expr) : Prop :=
  mapSpanOption (fun _ => default) (mapLiteralOption f e) = mapSpanOption (fun _ => default) e'

section

variable {f : Text → Text} {e e' : Expr} {es es' : List Expr}

theorem DecodesAll.cons (h : e.Decodes f e') (hs : DecodesAll f es es') :
    DecodesAll f (e :: es) (e' :: es') := by
  unfold DecodesAll mapLiteralAll mapSpanAll
  rw [hs]
  exact congrArg (· :: _) h

theorem decodesAll_nil_iff : DecodesAll f [] es' ↔ es' = [] := by
  cases es' with
  | nil => exact iff_of_true rfl rfl
  | cons e es => exact iff_of_false nofun nofun

theorem decodesAll_cons_iff : DecodesAll f (e :: es) es' ↔
    ∃ d ds, es' = d :: ds ∧ e.Decodes f d ∧ DecodesAll f es ds := by
  constructor
  · intro h
    cases es' with
    | nil => cases h
    | cons d ds => exact ⟨d, ds, rfl, (List.cons.inj h).1, (List.cons.inj h).2⟩
  · rintro ⟨d, ds, rfl, hd, hds⟩
    exact DecodesAll.cons hd hds

/-- Only a literal decodes a literal. -/
theorem decodes_literal_iff {s : Span} {value : Text} :
    (literal s value).Decodes f e' ↔ ∃ s', e' = literal s' (f value) := by
  constructor
  · intro h
    cases e' with
    | literal s' value' =>
      obtain ⟨-, hvalue⟩ := Expr.literal.inj h
      exact ⟨s', by rw [hvalue]⟩
    | _ => cases h
  · rintro ⟨s', rfl⟩
    rfl

theorem decodes_junction {s s' : Span} {op : Junction} {e₂ e₂' : Expr} (h : e.Decodes f e')
    (h₂ : e₂.Decodes f e₂') : (junction s op e e₂).Decodes f (junction s' op e' e₂') := by
  change junction default op (e.mapLiteral f).spanless (e₂.mapLiteral f).spanless = _
  rw [h, h₂]
  rfl

theorem decodes_compare {s s' : Span} {op : Comparison} {e₂ e₂' : Expr} (h : e.Decodes f e')
    (h₂ : e₂.Decodes f e₂') : (compare s op e e₂).Decodes f (compare s' op e' e₂') := by
  change compare default op (e.mapLiteral f).spanless (e₂.mapLiteral f).spanless = _
  rw [h, h₂]
  rfl

theorem decodes_call {s s' a b : Span} {name name' : Text} (hname : name = name')
    (h : DecodesAll f es es') : (call s ⟨a, name⟩ es).Decodes f (call s' ⟨b, name'⟩ es') := by
  rw [hname]
  exact congrArg (call default ⟨default, name'⟩) h

theorem DecodesAll.isEmpty_eq (h : DecodesAll f es es') : es.isEmpty = es'.isEmpty := by
  cases es with
  | nil => rw [decodesAll_nil_iff.1 h]
  | cons e es =>
    obtain ⟨d, ds, rfl, -⟩ := decodesAll_cons_iff.1 h
    rfl

theorem DecodesAll.ofParts (h : DecodesAll f es es') (hf : f [] = []) (s s' : Span) :
    (ofParts s es).Decodes f (ofParts s' es') := by
  match es with
  | [] =>
    rw [decodesAll_nil_iff.1 h]
    exact decodes_literal_iff.2 ⟨s', by rw [hf]; rfl⟩
  | [e] =>
    obtain ⟨d, ds, rfl, hd, hds⟩ := decodesAll_cons_iff.1 h
    rw [decodesAll_nil_iff.1 hds]
    exact hd
  | e :: e₂ :: es =>
    obtain ⟨d, ds, rfl, hd, hds⟩ := decodesAll_cons_iff.1 h
    obtain ⟨d₂, ds, rfl, -⟩ := decodesAll_cons_iff.1 hds
    exact congrArg (concat default) (DecodesAll.cons hd hds)

end

end Expr

/-! ## Tokens -/

/-- Whether the text of a token of the kind makes a difference to what is read. -/
def TokenKind.isRead : TokenKind → Bool
  | .identifier => true
  | .text => true
  | _ => false

/-- Whether a token is matched by another, in front of some tokens: it is of the same kind, its text
is the same if it is read, and else it is decoded to that of the other, whatever part of the tokens
behind it is decoded with it. -/
structure Token.Matches (f : Text → Text) (t : Token) (ts : List Token) (u : Token) : Prop where
  kind : t.kind = u.kind
  text : t.kind.isRead = true → t.text = u.text
  decode : ∀ k, f (t.text ++ (ts.take k).flatMap Token.text) =
    u.text ++ f ((ts.take k).flatMap Token.text)

/-- Whether tokens are matched by others, each by one. -/
inductive Matched (f : Text → Text) : List Token → List Token → Prop
  | nil : Matched f [] []
  | cons {t u : Token} {ts us : List Token} (hfirst : t.Matches f ts u) (hrest : Matched f ts us) :
    Matched f (t :: ts) (u :: us)

namespace Token.Matches

variable {f : Text → Text} {t u : Token} {ts : List Token} (h : t.Matches f ts u)

include h

theorem isWord_eq (word : Text) : t.isWord word = u.isWord word := by
  by_cases hkind : t.kind = .identifier
  · rw [isWord, isWord, ← h.kind, h.text (by rw [hkind]; rfl)]
  · have hu : ¬ u.kind = .identifier := by rwa [← h.kind]
    rw [isWord, isWord, beq_false_of_ne hkind, beq_false_of_ne hu]
    rfl

/-- The name of a call is the same. -/
theorem text_eq_of_beginsCall (hcall : beginsCall (t :: ts) = true) : t.text = u.text := by
  cases ts with
  | nil => cases hcall
  | cons v vs =>
    rw [beginsCall, Bool.and_eq_true, beq_iff_eq] at hcall
    exact h.text (by rw [hcall.1]; rfl)

end Token.Matches

namespace Matched

variable {f : Text → Text} {ts us : List Token}

theorem length_eq (h : Matched f ts us) : ts.length = us.length := by
  induction h with
  | nil => rfl
  | cons _ _ ih => rw [List.length_cons, List.length_cons, ih]

theorem skipSpace (h : Matched f ts us) : Matched f (skipSpace ts) (skipSpace us) := by
  induction h with
  | nil => exact .nil
  | cons hfirst hrest ih =>
    rw [Expression.skipSpace, Expression.skipSpace, List.dropWhile_cons, List.dropWhile_cons,
      hfirst.kind]
    split
    · exact ih
    · exact .cons hfirst hrest

theorem drop_one (h : Matched f ts us) : Matched f (ts.drop 1) (us.drop 1) := by
  cases h with
  | nil => exact .nil
  | cons _ hrest => exact hrest

theorem head?_kind_eq (h : Matched f ts us) : ts.head?.map Token.kind = us.head?.map Token.kind := by
  cases h with
  | nil => rfl
  | cons hfirst _ => exact congrArg some hfirst.kind

theorem beginsCall_eq (h : Matched f ts us) : beginsCall ts = beginsCall us := by
  cases h with
  | nil => rfl
  | cons hfirst hrest =>
    cases hrest with
    | nil => rfl
    | cons hsecond _ => rw [beginsCall, beginsCall, hfirst.kind, hsecond.kind]

/-- Matched tokens in front of matched tokens, whether or not they become one with the first. -/
theorem prepend {t u : Token} (hfirst : t.Matches f ts u) (h : Matched f ts us) :
    Matched f (t.prepend ts) (u.prepend us) := by
  cases h with
  | nil => exact .cons hfirst .nil
  | @cons t' u' ts us hsecond hrest =>
    rw [Token.prepend, Token.prepend, ← hfirst.kind, ← hsecond.kind]
    split
    · next htext =>
      refine .cons ⟨rfl, fun _ => ?_, fun k => ?_⟩ hrest
      · dsimp only
        rw [hfirst.text (by rw [htext.1]; rfl), hsecond.text (by rw [htext.2]; rfl)]
      · have hdecode := hfirst.decode (k + 1)
        rw [List.take_succ_cons, List.flatMap_cons, hsecond.decode] at hdecode
        dsimp only
        rw [List.append_assoc, hdecode, List.append_assoc]
    · exact .cons hfirst (.cons hsecond hrest)

/-- The names in front are the same. -/
theorem takeSymbol (h : Matched f ts us) :
    (takeSymbol ts).1.map Symbol.name = (takeSymbol us).1.map Symbol.name ∧
      Matched f (takeSymbol ts).2 (takeSymbol us).2 := by
  cases h with
  | nil => exact ⟨rfl, .nil⟩
  | @cons t u ts us hfirst hrest =>
    rw [Expression.takeSymbol, Expression.takeSymbol, ← hfirst.kind]
    split
    · next hkind => exact ⟨congrArg some (hfirst.text (by rw [hkind]; rfl)), hrest⟩
    · exact ⟨rfl, .cons hfirst hrest⟩

/-- So are names with space around them. -/
theorem named (h : Matched f ts us) :
    (Expression.takeSymbol (Expression.skipSpace ts)).1.map Symbol.name =
      (Expression.takeSymbol (Expression.skipSpace us)).1.map Symbol.name ∧
    Matched f (Expression.skipSpace (Expression.takeSymbol (Expression.skipSpace ts)).2)
      (Expression.skipSpace (Expression.takeSymbol (Expression.skipSpace us)).2) :=
  ⟨h.skipSpace.takeSymbol.1, h.skipSpace.takeSymbol.2.skipSpace⟩

theorem skipBalanced (h : Matched f ts us) (depth : Nat) (inQuote : Bool) :
    (skipBalanced depth inQuote ts = none ∧ skipBalanced depth inQuote us = none) ∨
      ∃ a b rest rest', skipBalanced depth inQuote ts = some (a, rest) ∧
        skipBalanced depth inQuote us = some (b, rest') ∧ Matched f rest rest' := by
  induction h generalizing depth inQuote with
  | nil => exact .inl ⟨rfl, rfl⟩
  | @cons t u ts us hfirst hrest ih =>
    rw [Expression.skipBalanced, Expression.skipBalanced, ← hfirst.kind]
    split
    · exact ih _ _
    split
    · exact ih _ _
    split
    · exact ih _ _
    split
    · split
      · exact .inr ⟨_, _, _, _, rfl, rfl, hrest⟩
      · exact ih _ _
    · exact ih _ _

end Matched

/-! ## Agreement -/

section

variable {α β : Type} (f : Text → Text)

/-- Whether two readers agree: both fail, or what they read is related and the tokens that they leave
are matched. -/
def Agree (Q : α → α → Prop) : Except ParseError (Taken α) → Except ParseError (Taken α) → Prop
  | .ok a, .ok b => Q a.1 b.1 ∧ Matched f a.2 b.2
  | .error _, .error _ => True
  | _, _ => False

variable {f}

theorem Agree.mono {Q R : α → α → Prop} {x y : Except ParseError (Taken α)} (h : Agree f Q x y)
    (hQR : ∀ a b, Q a b → R a b) : Agree f R x y := by
  match x, y, h with
  | .ok a, .ok b, h => exact ⟨hQR _ _ h.1, h.2⟩
  | .error _, .error _, _ => trivial

/-- One reader after another. -/
theorem Agree.bind {Q : α → α → Prop} {R : β → β → Prop} {x y : Except ParseError (Taken α)}
    {next next' : Taken α → Except ParseError (Taken β)} (h : Agree f Q x y)
    (hnext : ∀ a b rest rest', Q a b → Matched f rest rest' →
      Agree f R (next (a, rest)) (next' (b, rest'))) :
    Agree f R (x >>= next) (y >>= next') := by
  match x, y, h with
  | .ok a, .ok b, h => exact hnext _ _ _ _ h.1 h.2
  | .error _, .error _, _ => trivial

end

/-! ## What does not call itself -/

section

variable {f : Text → Text} {stop stop' start start' : Nat} {ts us : List Token}

theorem agree_closeConstruct (h : Matched f ts us) (construct : Construct) :
    Agree f (fun _ _ => True) (closeConstruct stop construct ts)
      (closeConstruct stop' construct us) := by
  cases h with
  | nil => trivial
  | cons hfirst hrest =>
    rw [closeConstruct, closeConstruct, ← hfirst.kind]
    split
    · exact ⟨trivial, hrest⟩
    · trivial

theorem agree_closeParenthesis (h : Matched f ts us) :
    Agree f (fun _ _ => True) (closeParenthesis stop ts) (closeParenthesis stop' us) := by
  cases h with
  | nil => trivial
  | cons hfirst hrest =>
    rw [closeParenthesis, closeParenthesis, ← hfirst.kind]
    split
    · exact ⟨trivial, hrest⟩
    · trivial

/-- Symbols of the same name are the same, wherever they stand. -/
theorem map_spanless_eq {s s' : Option Symbol} (h : s.map Symbol.name = s'.map Symbol.name) :
    s.map (fun n => (⟨default, n.name⟩ : Symbol)) = s'.map fun n => ⟨default, n.name⟩ := by
  have hname := congrArg (Option.map fun name => (⟨default, name⟩ : Symbol)) h
  rwa [Option.map_map, Option.map_map] at hname

theorem isSome_eq_of_map_eq {s s' : Option Symbol} (h : s.map Symbol.name = s'.map Symbol.name) :
    s.isSome = s'.isSome := by
  rw [← Option.isSome_map, h, Option.isSome_map]

theorem agree_readProperty (h : Matched f ts us) :
    Agree f (fun e e' => e.Decodes f e' ∧ e.isReference = true) (readProperty stop start ts)
      (readProperty stop' start' us) := by
  obtain ⟨hname, hrest⟩ := h.named
  have hnode {a b : Span} (isFunction : Bool) :
      (Expr.property a (takeSymbol (skipSpace ts)).1 isFunction).Decodes f
        (Expr.property b (takeSymbol (skipSpace us)).1 isFunction) :=
    congrArg (Expr.property default · isFunction) (map_spanless_eq hname)
  unfold readProperty
  extract_lets named rest isFunction named' rest' isFunction'
  have hfunction : isFunction = isFunction' := by
    have hsome : named.1.isSome = named'.1.isSome := isSome_eq_of_map_eq hname
    have hnone : named.1.isNone = named'.1.isNone := by
      rw [← Option.not_isSome, ← Option.not_isSome, hsome]
    have hrest : Matched f rest rest' := hrest
    dsimp only [isFunction, isFunction']
    revert hrest
    generalize rest = left
    generalize rest' = left'
    intro hrest
    cases hrest with
    | nil => rfl
    | @cons t u _ _ hfirst _ =>
      dsimp only
      rw [← hfirst.kind, hsome, hnone]
      by_cases hkind : t.kind = .text
      · rw [hfirst.text (by rw [hkind]; rfl)]
      · rw [beq_false_of_ne hkind, Bool.false_and, Bool.false_and]
        rfl
  rw [← hfunction]
  split
  · rcases hrest.skipBalanced 1 false with ⟨hnone, hnone'⟩ | ⟨a, b, left, left', hskip, hskip', hleft⟩
    · rw [hnone, hnone']
      trivial
    · rw [hskip, hskip']
      exact ⟨⟨hnode true, rfl⟩, hleft⟩
  · exact (agree_closeConstruct hrest _).bind fun _ _ _ _ _ hleft => ⟨⟨hnode false, rfl⟩, hleft⟩

theorem agree_readMetadata (h : Matched f ts us) :
    Agree f (fun e e' => e.Decodes f e' ∧ e.isReference = true) (readMetadata stop start ts)
      (readMetadata stop' start' us) := by
  obtain ⟨hname, hrest⟩ := h.named
  unfold readMetadata
  dsimp only
  generalize skipSpace (takeSymbol (skipSpace ts)).2 = rest at hrest
  generalize skipSpace (takeSymbol (skipSpace us)).2 = rest' at hrest
  cases hrest with
  | nil => trivial
  | cons hfirst hbehind =>
    dsimp only
    rw [← hfirst.kind]
    split
    · obtain ⟨hname', hlast⟩ := hbehind.named
      refine (agree_closeConstruct hlast _).bind fun _ _ _ _ _ hleft =>
        ⟨⟨?_, rfl⟩, hleft⟩
      change Expr.metadata default _ _ = Expr.metadata default _ _
      rw [map_spanless_eq hname, map_spanless_eq hname']
    · refine (agree_closeConstruct (.cons hfirst hbehind) _).bind fun _ _ _ _ _ hleft =>
        ⟨⟨?_, rfl⟩, hleft⟩
      exact congrArg (Expr.metadata default none) (map_spanless_eq hname)

end

/-! ## What calls itself -/

open ProjectFile.Expression.Expr (Decodes DecodesAll DecodesOption)

/-- Whether the first of some parts, if it is a literal, is the text of the first of some tokens. -/
def Leads (ts : List Token) (parts : List Expr) : Prop :=
  ∀ s value more, parts = .literal s value :: more → ∃ k, value = (ts.take k).flatMap Token.text

/-- What the readers that may still make `n` calls agree on. -/
structure Agrees (f : Text → Text) (stop stop' n : Nat) : Prop where
  run : ∀ {ends : TokenKind → Bool} {ts us : List Token}, Matched f ts us →
    Agree f (fun es es' => DecodesAll f es es' ∧ Leads ts es) (readRun stop ends n ts)
      (readRun stop' ends n us)
  items : ∀ {start start' : Nat} {ts us : List Token}, Matched f ts us →
    Agree f (fun e e' => e.Decodes f e' ∧ e.isReference = true) (readItems stop n start ts)
      (readItems stop' n start' us)
  transform : ∀ {ts us : List Token}, Matched f ts us →
    Agree f (DecodesOption f) (readTransform stop n ts) (readTransform stop' n us)
  separator : ∀ {ts us : List Token}, Matched f ts us →
    Agree f (DecodesOption f) (readSeparator stop n ts) (readSeparator stop' n us)
  quoted : ∀ {start start' : Nat} {ts us : List Token}, Matched f ts us →
    Agree f (Decodes f) (readQuoted stop n start ts) (readQuoted stop' n start' us)
  disjunction : ∀ {ts us : List Token}, Matched f ts us →
    Agree f (Decodes f) (readOr stop n ts) (readOr stop' n us)
  moreDisjunction : ∀ {left left' : Expr} {ts us : List Token}, left.Decodes f left' →
    Matched f ts us → Agree f (Decodes f) (readMoreOr stop n left ts) (readMoreOr stop' n left' us)
  conjunction : ∀ {ts us : List Token}, Matched f ts us →
    Agree f (Decodes f) (readAnd stop n ts) (readAnd stop' n us)
  moreConjunction : ∀ {left left' : Expr} {ts us : List Token}, left.Decodes f left' →
    Matched f ts us → Agree f (Decodes f) (readMoreAnd stop n left ts) (readMoreAnd stop' n left' us)
  negation : ∀ {ts us : List Token}, Matched f ts us →
    Agree f (Decodes f) (readNot stop n ts) (readNot stop' n us)
  operand : ∀ {t u : Token} {ts us : List Token}, Matched f (t :: ts) (u :: us) →
    Agree f (Decodes f) (readOperand stop n t ts) (readOperand stop' n u us)
  arguments : ∀ {ts us : List Token}, Matched f ts us →
    Agree f (DecodesAll f) (readArguments stop n ts) (readArguments stop' n us)
  moreArguments : ∀ {ts us : List Token}, Matched f ts us →
    Agree f (DecodesAll f) (readMoreArguments stop n ts) (readMoreArguments stop' n us)

section

variable {f : Text → Text} (hf : f [] = []) {stop stop' n : Nat} {t u : Token} {ts us : List Token}

/-! ### Text runs and item references -/

include hf in
/-- Text in front of parts that agree. -/
theorem prependText_agrees (hfirst : t.Matches f ts u) {es es' : List Expr}
    (h : DecodesAll f es es') (hleads : Leads ts es) :
    DecodesAll f (prependText t es) (prependText u es') ∧ Leads (t :: ts) (prependText t es) := by
  -- Parts that begin with no literal have one put in front, which is the text of the token.
  have hself : f t.text = u.text := by
    have hdecode := hfirst.decode 0
    rwa [List.take_zero, List.flatMap_nil, List.append_nil, hf, List.append_nil] at hdecode
  have hleads' : Leads (t :: ts) (.literal t.span t.text :: es) := by
    rintro s value more heq
    cases heq
    exact ⟨1, by simp⟩
  have hcons : DecodesAll f (.literal t.span t.text :: es) (.literal u.span u.text :: es') :=
    .cons (Expr.decodes_literal_iff.2 ⟨_, by rw [hself]⟩) h
  cases es with
  | nil =>
    obtain rfl := Expr.decodesAll_nil_iff.1 h
    exact ⟨hcons, hleads'⟩
  | cons e es =>
    obtain ⟨d, ds, rfl, hd, hds⟩ := Expr.decodesAll_cons_iff.1 h
    cases e with
    | literal s value =>
      obtain ⟨s', rfl⟩ := Expr.decodes_literal_iff.1 hd
      obtain ⟨k, rfl⟩ := hleads s value es rfl
      refine ⟨.cons (Expr.decodes_literal_iff.2 ⟨⟨u.start, s'.stop⟩, ?_⟩) hds, ?_⟩
      · rw [hfirst.decode k]
      · rintro s value more heq
        cases heq
        exact ⟨k + 1, by rw [List.take_succ_cons, List.flatMap_cons]⟩
    | _ =>
      cases d <;> first | cases hd; done | exact ⟨hcons, hleads'⟩

variable (agrees : Agrees f stop stop' n)

include agrees

/-- A run with a reference in front of it. -/
theorem agree_partAndRun {ends : TokenKind → Bool} {e e' : Expr} (he : e.Decodes f e')
    (hreference : e.isReference = true) (h : Matched f ts us) (ws : List Token) :
    Agree f (fun es es' => DecodesAll f es es' ∧ Leads ws es)
      (do
        let (parts, rest) ← readRun stop ends n ts
        return (e :: parts, rest))
      (do
        let (parts, rest) ← readRun stop' ends n us
        return (e' :: parts, rest)) := by
  refine (agrees.run h).bind fun _ _ _ _ hparts hleft => ⟨⟨.cons he hparts.1, ?_⟩, hleft⟩
  rintro s value more heq
  cases heq
  cases hreference

include hf in
theorem agree_readRun {ends : TokenKind → Bool} (h : Matched f ts us) :
    Agree f (fun es es' => DecodesAll f es es' ∧ Leads ts es) (readRun stop ends (n + 1) ts)
      (readRun stop' ends (n + 1) us) := by
  have hnone (ws : List Token) : DecodesAll f [] [] ∧ Leads ws [] := ⟨rfl, nofun⟩
  cases h with
  | nil =>
    rw [readRun, readRun]
    exact ⟨hnone [], .nil⟩
  | cons hfirst hrest =>
    rw [readRun, readRun, ← hfirst.kind]
    split
    · exact ⟨hnone _, .cons hfirst hrest⟩
    split
    · exact (agree_readProperty hrest).bind fun _ _ _ _ hpart hleft =>
        agree_partAndRun agrees hpart.1 hpart.2 hleft _
    · exact (agrees.items hrest).bind fun _ _ _ _ hpart hleft =>
        agree_partAndRun agrees hpart.1 hpart.2 hleft _
    · exact (agree_readMetadata hrest).bind fun _ _ _ _ hpart hleft =>
        agree_partAndRun agrees hpart.1 hpart.2 hleft _
    · exact (agrees.run hrest).bind fun _ _ _ _ hparts hleft =>
        ⟨prependText_agrees hf hfirst hparts.1 hparts.2, hleft⟩

theorem agree_readItems {start start' : Nat} (h : Matched f ts us) :
    Agree f (fun e e' => e.Decodes f e' ∧ e.isReference = true) (readItems stop (n + 1) start ts)
      (readItems stop' (n + 1) start' us) := by
  obtain ⟨hname, hnamed⟩ := h.named
  rw [readItems, readItems]
  refine (agrees.transform hnamed).bind fun _ _ _ _ htransform hrest => ?_
  refine (agrees.separator hrest).bind fun _ _ _ _ hseparator hrest => ?_
  refine (agree_closeConstruct hrest _).bind fun _ _ _ _ _ hleft => ⟨⟨?_, rfl⟩, hleft⟩
  change Expr.items default _ _ _ = Expr.items default _ _ _
  rw [map_spanless_eq hname, htransform, hseparator]

/-! ### Quoted strings, transforms and separators -/

theorem agree_readQuoted {start start' : Nat} (h : Matched f ts us) :
    Agree f (Decodes f) (readQuoted stop (n + 1) start ts) (readQuoted stop' (n + 1) start' us) := by
  rw [readQuoted, readQuoted]
  refine (agrees.run h).bind fun _ _ _ _ hparts hrest => ?_
  cases hrest with
  | nil => trivial
  | cons _ hleft => exact ⟨congrArg (Expr.quoted default) hparts.1, hleft⟩

/-- A quoted string with space behind it. -/
theorem agree_spacedQuoted {start start' : Nat} (h : Matched f ts us) :
    Agree f (DecodesOption f)
      (do
        let (e, rest) ← readQuoted stop n start ts
        return (some e, skipSpace rest))
      (do
        let (e, rest) ← readQuoted stop' n start' us
        return (some e, skipSpace rest)) :=
  (agrees.quoted h).bind fun _ _ _ _ he hleft => ⟨congrArg some he, hleft.skipSpace⟩

theorem agree_readTransform (h : Matched f ts us) :
    Agree f (DecodesOption f) (readTransform stop (n + 1) ts) (readTransform stop' (n + 1) us) := by
  cases h with
  | nil =>
    rw [readTransform, readTransform]
    exact ⟨rfl, .nil⟩
  | @cons t u ts us hfirst hrest =>
    have hskip := hrest.skipSpace
    rw [readTransform, readTransform, ← hfirst.kind]
    generalize skipSpace ts = ts' at hskip
    generalize skipSpace us = us' at hskip
    split
    · exact ⟨rfl, .cons hfirst hrest⟩
    cases hskip with
    | nil => trivial
    | cons hsecond hbehind =>
      have hcall := (Matched.cons hsecond hbehind).beginsCall_eq
      dsimp only
      rw [← hsecond.kind, ← hcall]
      split
      · exact agree_spacedQuoted agrees hbehind
      split
      · next hbegins =>
        refine (agrees.arguments hbehind.drop_one).bind fun _ _ _ _ harguments hrest => ?_
        refine (agree_closeConstruct hrest _).bind fun _ _ _ _ _ hleft => ⟨?_, hleft.skipSpace⟩
        exact congrArg some (Expr.decodes_call (hsecond.text_eq_of_beginsCall hbegins) harguments)
      · trivial

theorem agree_readSeparator (h : Matched f ts us) :
    Agree f (DecodesOption f) (readSeparator stop (n + 1) ts) (readSeparator stop' (n + 1) us) := by
  cases h with
  | nil =>
    rw [readSeparator, readSeparator]
    exact ⟨rfl, .nil⟩
  | @cons t u ts us hfirst hrest =>
    have hskip := hrest.skipSpace
    rw [readSeparator, readSeparator, ← hfirst.kind]
    generalize skipSpace ts = ts' at hskip
    generalize skipSpace us = us' at hskip
    split
    · exact ⟨rfl, .cons hfirst hrest⟩
    cases hskip with
    | nil => trivial
    | cons hsecond hbehind =>
      dsimp only
      rw [← hsecond.kind]
      split
      · exact agree_spacedQuoted agrees hbehind
      · trivial

/-! ### Conditions -/

theorem agree_readOr (h : Matched f ts us) :
    Agree f (Decodes f) (readOr stop (n + 1) ts) (readOr stop' (n + 1) us) := by
  rw [readOr, readOr]
  exact (agrees.conjunction h).bind fun _ _ _ _ hfirst hrest => agrees.moreDisjunction hfirst hrest

theorem agree_readMoreOr {left left' : Expr} (hleft : left.Decodes f left') (h : Matched f ts us) :
    Agree f (Decodes f) (readMoreOr stop (n + 1) left ts) (readMoreOr stop' (n + 1) left' us) := by
  have hskip := h.skipSpace
  rw [readMoreOr, readMoreOr]
  generalize skipSpace ts = ts' at hskip
  generalize skipSpace us = us' at hskip
  cases hskip with
  | nil => exact ⟨hleft, .nil⟩
  | cons hfirst hrest =>
    dsimp only
    rw [← hfirst.isWord_eq]
    split
    · refine (agrees.conjunction hrest).bind fun _ _ _ _ hright hrest => ?_
      exact agrees.moreDisjunction (Expr.decodes_junction hleft hright) hrest
    · exact ⟨hleft, .cons hfirst hrest⟩

theorem agree_readAnd (h : Matched f ts us) :
    Agree f (Decodes f) (readAnd stop (n + 1) ts) (readAnd stop' (n + 1) us) := by
  rw [readAnd, readAnd]
  exact (agrees.negation h).bind fun _ _ _ _ hfirst hrest => agrees.moreConjunction hfirst hrest

theorem agree_readMoreAnd {left left' : Expr} (hleft : left.Decodes f left') (h : Matched f ts us) :
    Agree f (Decodes f) (readMoreAnd stop (n + 1) left ts) (readMoreAnd stop' (n + 1) left' us) := by
  have hskip := h.skipSpace
  rw [readMoreAnd, readMoreAnd]
  generalize skipSpace ts = ts' at hskip
  generalize skipSpace us = us' at hskip
  cases hskip with
  | nil => exact ⟨hleft, .nil⟩
  | cons hfirst hrest =>
    dsimp only
    rw [← hfirst.isWord_eq]
    split
    · refine (agrees.negation hrest).bind fun _ _ _ _ hright hrest => ?_
      exact agrees.moreConjunction (Expr.decodes_junction hleft hright) hrest
    · exact ⟨hleft, .cons hfirst hrest⟩

/-- What is behind the left side of a comparison, or behind a term that is none. -/
theorem agree_comparison {left left' : Expr} (hleft : left.Decodes f left') (h : Matched f ts us) :
    Agree f (Decodes f)
      (match skipSpace ts with
      | [] => .ok (left, [])
      | u :: rest =>
        match u.kind, skipSpace rest with
        | .comparison _, [] => .error ⟨.missingOperand, stop⟩
        | .comparison op, v :: rest => do
          let (right, rest) ← readOperand stop n v rest
          return (.compare (left.span.join right.span) op left right, rest)
        | _, _ => .ok (left, u :: rest))
      (match skipSpace us with
      | [] => .ok (left', [])
      | u :: rest =>
        match u.kind, skipSpace rest with
        | .comparison _, [] => .error ⟨.missingOperand, stop'⟩
        | .comparison op, v :: rest => do
          let (right, rest) ← readOperand stop' n v rest
          return (.compare (left'.span.join right.span) op left' right, rest)
        | _, _ => .ok (left', u :: rest)) := by
  have hskip := h.skipSpace
  generalize skipSpace ts = ts' at hskip
  generalize skipSpace us = us' at hskip
  cases hskip with
  | nil => exact ⟨hleft, .nil⟩
  | @cons t u ts us hfirst hrest =>
    have hunchanged := And.intro hleft (Matched.cons hfirst hrest)
    have hskip := hrest.skipSpace
    dsimp only
    rw [← hfirst.kind]
    generalize skipSpace ts = ts' at hskip
    generalize skipSpace us = us' at hskip
    cases t.kind with
    | comparison op =>
      cases hskip with
      | nil => trivial
      | cons hsecond hrest =>
        exact (agrees.operand (.cons hsecond hrest)).bind fun _ _ _ _ hright hrest =>
          ⟨Expr.decodes_compare hleft hright, hrest⟩
    | _ => exact hunchanged

theorem agree_readNot (h : Matched f ts us) :
    Agree f (Decodes f) (readNot stop (n + 1) ts) (readNot stop' (n + 1) us) := by
  have hskip := h.skipSpace
  rw [readNot, readNot]
  generalize skipSpace ts = ts' at hskip
  generalize skipSpace us = us' at hskip
  cases hskip with
  | nil => trivial
  | cons hfirst hrest =>
    dsimp only
    rw [← hfirst.kind]
    split
    · refine (agrees.negation hrest).bind fun _ _ _ _ hoperand hleft => ⟨?_, hleft⟩
      exact congrArg (Expr.negation default) hoperand
    · exact (agrees.operand (.cons hfirst hrest)).bind fun _ _ _ _ hleft hrest =>
        agree_comparison agrees hleft hrest

include hf in
theorem agree_readOperand (h : Matched f (t :: ts) (u :: us)) :
    Agree f (Decodes f) (readOperand stop (n + 1) t ts) (readOperand stop' (n + 1) u us) := by
  have hcall := h.beginsCall_eq
  cases h with
  | cons hfirst hrest =>
    rw [readOperand, readOperand, ← hfirst.kind, ← hcall, ← hfirst.isWord_eq, ← hfirst.isWord_eq]
    split
    · exact agrees.quoted hrest
    split
    · refine (agrees.disjunction hrest).bind fun _ _ _ _ hinner hrest => ?_
      refine (agree_closeParenthesis hrest).bind fun _ _ _ _ _ hleft => ⟨?_, hleft⟩
      exact congrArg (Expr.group default) hinner
    split
    · next hbegins =>
      refine (agrees.arguments hrest.drop_one).bind fun _ _ _ _ harguments hrest => ?_
      refine (agree_closeParenthesis hrest).bind fun _ _ _ _ _ hleft => ⟨?_, hleft⟩
      exact Expr.decodes_call (hfirst.text_eq_of_beginsCall hbegins) harguments
    split
    · trivial
    · refine (agrees.run (.cons hfirst hrest)).bind fun parts parts' _ _ hparts hleft => ?_
      dsimp only
      rw [← hparts.1.isEmpty_eq]
      split
      · trivial
      · exact ⟨hparts.1.ofParts hf _ _, hleft⟩

theorem agree_readArguments (h : Matched f ts us) :
    Agree f (DecodesAll f) (readArguments stop (n + 1) ts) (readArguments stop' (n + 1) us) := by
  have hskip := h.skipSpace
  rw [readArguments, readArguments, ← hskip.head?_kind_eq]
  split
  · exact ⟨rfl, hskip⟩
  · exact agrees.moreArguments hskip

theorem agree_readMoreArguments (h : Matched f ts us) :
    Agree f (DecodesAll f) (readMoreArguments stop (n + 1) ts)
      (readMoreArguments stop' (n + 1) us) := by
  rw [readMoreArguments, readMoreArguments]
  refine (agrees.disjunction h).bind fun _ _ _ _ hargument hrest => ?_
  cases hrest with
  | nil => exact ⟨.cons hargument rfl, .nil⟩
  | cons hfirst hrest =>
    dsimp only
    rw [← hfirst.kind]
    split
    · exact (agrees.moreArguments hrest).bind fun _ _ _ _ harguments hleft =>
        ⟨.cons hargument harguments, hleft⟩
    · exact ⟨.cons hargument rfl, .cons hfirst hrest⟩

end

/-- Readers that may make no calls agree. -/
theorem agrees_zero (f : Text → Text) (stop stop' : Nat) : Agrees f stop stop' 0 where
  run h := by
    cases h with
    | nil =>
      rw [readRun, readRun]
      exact ⟨⟨rfl, nofun⟩, .nil⟩
    | cons => trivial
  transform h := by
    cases h with
    | nil =>
      rw [readTransform, readTransform]
      exact ⟨rfl, .nil⟩
    | cons => trivial
  separator h := by
    cases h with
    | nil =>
      rw [readSeparator, readSeparator]
      exact ⟨rfl, .nil⟩
    | cons => trivial
  items h := trivial
  quoted h := trivial
  disjunction h := trivial
  moreDisjunction hleft h := trivial
  conjunction h := trivial
  moreConjunction hleft h := trivial
  negation h := trivial
  operand h := trivial
  arguments h := trivial
  moreArguments h := trivial

/-- **The readers agree**, however many calls they may make. -/
theorem agrees {f : Text → Text} (hf : f [] = []) (stop stop' n : Nat) : Agrees f stop stop' n := by
  induction n with
  | zero => exact agrees_zero f stop stop'
  | succ n ih =>
    exact {
      run := agree_readRun hf ih
      items := agree_readItems ih
      transform := agree_readTransform ih
      separator := agree_readSeparator ih
      quoted := agree_readQuoted ih
      disjunction := agree_readOr ih
      moreDisjunction := agree_readMoreOr ih
      conjunction := agree_readAnd ih
      moreConjunction := agree_readMoreAnd ih
      negation := agree_readNot ih
      operand := agree_readOperand hf ih
      arguments := agree_readArguments ih
      moreArguments := agree_readMoreArguments ih }

/-- **Matched tokens are read alike as a condition:** they are refused both, or read as trees of
which the second is the first with decoded literals. -/
theorem map_spanless_readCondition {f : Text → Text} (hf : f [] = []) (stop stop' : Nat)
    {ts us : List Token} (h : Matched f ts us) :
    (readCondition stop ts).toOption.map (fun e => (e.mapLiteral f).spanless) =
      (readCondition stop' us).toOption.map Expr.spanless := by
  have hagree := (agrees hf stop stop' (stepLimit ts)).disjunction h
  have hlimit : stepLimit ts = stepLimit us := by rw [stepLimit, stepLimit, h.length_eq]
  rw [readCondition, readCondition, ← hlimit]
  generalize readOr stop (stepLimit ts) ts = x at hagree
  generalize readOr stop' (stepLimit ts) us = y at hagree
  match x, y, hagree with
  | .error _, .error _, _ => rfl
  | .ok (e, rest), .ok (e', rest'), hagree =>
    obtain ⟨he, hrest⟩ := hagree
    cases hrest with
    | nil => exact congrArg some he
    | cons => rfl

end ProjectFile.Expression
