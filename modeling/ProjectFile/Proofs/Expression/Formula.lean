import ProjectFile.Proofs.Expression.Productions

/-!
Formulas: conditions that combine comparisons of a property with a word by `!`, `and` and `or`.

A formula says for every assignment of values to names whether it is true (`Formula.meaning`). It is
written with no more parentheses than precedence asks for (`Formula.print`), and what is written is
read as a tree of the formula (`Formula.exists_parseCondition_print`): a tree with the same
connectives, parentheses apart, and at each comparison two quoted strings of which the one has the
reference inside, and the other the word.
-/

namespace ProjectFile.Expression

open WrittenCondition (Strength leftStrength rightStrength enclose encloseLexed Lexes)

/-! ## Words -/

/-- A letter or `_`, and behind it letters, digits and `_`. -/
structure Word where
  first : Char
  rest : Text
  isLetter_first : isLetter first = true
  all_rest : rest.all isWordChar = true

namespace Word

def text (w : Word) : Text := w.first :: w.rest

theorem isWordChar_rest (w : Word) : ∀ c ∈ w.rest, isWordChar c = true :=
  List.all_eq_true.1 w.all_rest

theorem isIdentifier (w : Word) : IsIdentifier w.text :=
  ⟨w.first, w.rest, rfl, w.isLetter_first, identifierLength_eq w.isWordChar_rest⟩

theorem isWordChar_of_mem (w : Word) : ∀ c ∈ w.text, isWordChar c = true :=
  List.forall_mem_cons.2 ⟨isWordChar_of_isLetter w.isLetter_first, w.isWordChar_rest⟩

/-- The reference to the property that the word names. -/
def reference (w : Word) : Text := '$' :: '(' :: (w.text ++ [')'])

end Word

/-- A text between quotes. -/
def quote (t : Text) : Text := '\'' :: (t ++ ['\''])

/-! ## Formulas -/

/-- A condition on the values of properties. -/
inductive Formula where
  /-- Whether the value of a property is a word, or else whether it is not. -/
  | atom (property : Word) (isEqual : Bool) (word : Word)
  | negation (operand : Formula)
  | junction (op : Junction) (word : Spelling op) (left right : Formula)

namespace Formula

/-- Whether the formula is true where names have the given values. Values and words are compared
without regard to the case of ASCII letters. -/
def meaning (value : Text → Text) : Formula → Bool
  | .atom property isEqual word => Text.sameName (value property.text) word.text == isEqual
  | .negation operand => !operand.meaning value
  | .junction .conjunction _ left right => left.meaning value && right.meaning value
  | .junction .disjunction _ left right => left.meaning value || right.meaning value

/-- How tightly the parts of a formula are bound. -/
def strength : Formula → Strength
  | .atom .. => .term
  | .negation _ => .term
  | .junction .conjunction _ _ _ => .conjunction
  | .junction .disjunction _ _ _ => .disjunction

/-- Whether a formula needs parentheses where it has to be bound that tightly. -/
def isLoose (f : Formula) (needed : Strength) : Bool := decide (f.strength.rank < needed.rank)

def comparison (isEqual : Bool) : Comparison := if isEqual then .equal else .notEqual

/-- The formula as text. -/
def print : Formula → Text
  | .atom property isEqual word =>
    quote property.reference ++ ' ' :: ((comparison isEqual).text.toList ++ ' ' :: quote word.text)
  | .negation operand => '!' :: enclose (operand.isLoose .term) operand.print
  | .junction op word left right =>
    enclose (left.isLoose (leftStrength op)) left.print ++
      ' ' :: (word.text ++ ' ' :: enclose (right.isLoose (rightStrength op)) right.print)

/-- What a formula begins with. -/
theorem exists_head (loose : Bool) (f : Formula) :
    ∃ d t, enclose loose f.print = d :: t ∧ (d = '\'' ∨ d = '!' ∨ d = '(') := by
  cases loose with
  | true => exact ⟨'(', f.print ++ [')'], rfl, .inr (.inr rfl)⟩
  | false =>
    induction f with
    | atom property isEqual word => exact ⟨'\'', _, rfl, .inl rfl⟩
    | negation operand => exact ⟨'!', _, rfl, .inr (.inl rfl)⟩
    | junction op word left right ihleft =>
      cases hloose : left.isLoose (leftStrength op) with
      | true => exact ⟨'(', _, by rw [enclose, print, hloose]; rfl, .inr (.inr rfl)⟩
      | false =>
        obtain ⟨d, t, hprint, hd⟩ := ihleft
        exact ⟨d, _, by rw [enclose, print, hloose, hprint]; rfl, hd⟩

/-- The characters that a formula is written with. -/
def IsSign (c : Char) : Prop := isWordChar c = true ∨ c ∈ [' ', '\'', '$', '(', ')', '!', '=']

instance (c : Char) : Decidable (IsSign c) := inferInstanceAs (Decidable (_ ∨ _))

theorem isSign_enclose {loose : Bool} {t : Text} (h : ∀ c ∈ t, IsSign c) :
    ∀ c ∈ enclose loose t, IsSign c := by
  intro c hc
  unfold enclose at hc
  split at hc
  · rcases List.mem_cons.1 hc with rfl | hc
    · exact .inr (by decide)
    rcases List.mem_append.1 hc with hc | hc
    · exact h c hc
    · rw [List.mem_singleton.1 hc]
      exact .inr (by decide)
  · exact h c hc

theorem isSign_print (f : Formula) : ∀ c ∈ f.print, IsSign c := by
  have hsigns {t : Text} (h : t.all (fun c => decide (IsSign c)) = true) : ∀ c ∈ t, IsSign c :=
    fun c hc => of_decide_eq_true (List.all_eq_true.1 h c hc)
  have hword (w : Word) : ∀ c ∈ w.text, IsSign c := fun c hc => .inl (w.isWordChar_of_mem c hc)
  induction f with
  | atom property isEqual word =>
    have hprint : (atom property isEqual word).print = ['\'', '$', '('] ++ (property.text ++
        ([')', '\'', ' '] ++ ((comparison isEqual).text.toList ++ ([' ', '\''] ++ (word.text ++ ['\'']))))) := by
      simp [print, quote, Word.reference]
    have hcomparison : ∀ c ∈ (comparison isEqual).text.toList, IsSign c := by
      cases isEqual <;> exact hsigns (by decide)
    rw [hprint]
    simp only [List.forall_mem_append]
    exact ⟨hsigns (by decide), hword property, hsigns (by decide), hcomparison, hsigns (by decide),
      hword word, hsigns (by decide)⟩
  | negation operand ih => exact List.forall_mem_cons.2 ⟨.inr (by decide), isSign_enclose ih⟩
  | junction op word left right ihleft ihright =>
    have hjoins : ∀ c ∈ word.text, IsSign c := fun c hc =>
      .inl (isWordChar_of_isLetter (word.isLetter_of_mem c hc))
    have hspace : IsSign ' ' := .inr (by decide)
    rw [print, List.forall_mem_append, List.forall_mem_cons, List.forall_mem_append,
      List.forall_mem_cons]
    exact ⟨isSign_enclose ihleft, hspace, hjoins, hspace, isSign_enclose ihright⟩

/-- Whether a tree of the text `t` is one of the formula. What is compared is what is inside the
quotes, which are one byte each. -/
inductive IsTree (t : Text) : Formula → Expr → Prop
  | atom {property word : Word} {isEqual : Bool} {s left right : Span} {parts parts' : List Expr}
    (hleft : t.slice (left.start + 1) (left.stop - 1) = property.reference)
    (hright : t.slice (right.start + 1) (right.stop - 1) = word.text) :
    IsTree t (.atom property isEqual word)
      (.compare s (comparison isEqual) (.quoted left parts) (.quoted right parts'))
  | negation {s : Span} {f : Formula} {e : Expr} (h : IsTree t f e) :
    IsTree t (.negation f) (.negation s e)
  | junction {s : Span} {op : Junction} {word : Spelling op} {f g : Formula} {e e' : Expr}
    (hleft : IsTree t f e) (hright : IsTree t g e') :
    IsTree t (.junction op word f g) (.junction s op e e')
  | group {s : Span} {f : Formula} {e : Expr} (h : IsTree t f e) : IsTree t f (.group s e)

/-! ## The lexemes of formulas -/

/-- Lexemes between quotes. -/
def quoteLexed (ls : List Lexeme) : List Lexeme := (.quote, ['\'']) :: (ls ++ [(.quote, ['\''])])

/-- The lexemes of a reference. -/
def referenceLexed (w : Word) : List Lexeme :=
  [(.propertyOpen, ['$', '(']), (.identifier, w.text), (.rightParen, [')'])]

/-- The lexemes of a formula. -/
def lexed : Formula → List Lexeme
  | .atom property isEqual word =>
    spaced (quoteLexed (referenceLexed property))
      (.comparison (comparison isEqual), (comparison isEqual).text.toList)
      (quoteLexed [(.identifier, word.text)])
  | .negation operand => (.bang, ['!']) :: encloseLexed (operand.isLoose .term) operand.lexed
  | .junction op word left right =>
    spaced (encloseLexed (left.isLoose (leftStrength op)) left.lexed) (.identifier, word.text)
      (encloseLexed (right.isLoose (rightStrength op)) right.lexed)

theorem head_enclose (loose : Bool) (f : Formula) (rest : Text) :
    ∀ d ∈ (enclose loose f.print ++ rest).head?, Text.isMarkupSpace d = false := by
  obtain ⟨e, t, hprint, he⟩ := exists_head loose f
  rw [hprint]
  intro d hd
  cases hd
  rcases he with rfl | rfl | rfl <;> rfl

theorem lexes_quote {t : Text} {ls : List Lexeme}
    (h : ∀ rest, lexemes (t ++ '\'' :: rest) = ls ++ lexemes ('\'' :: rest)) :
    Lexes (quote t) (quoteLexed ls) := by
  intro rest
  have hopen : lexemes ('\'' :: (t ++ '\'' :: rest)) = _ :=
    lexemes_sign .quote (fun _ => rfl) (by decide) _
  have hclose : lexemes ('\'' :: rest) = _ := lexemes_sign .quote (fun _ => rfl) (by decide) _
  rw [h, hclose] at hopen
  simpa [quote, quoteLexed] using hopen

theorem lexes_reference (w : Word) : Lexes w.reference (referenceLexed w) := by
  intro rest
  have hname : lexemes (w.text ++ ')' :: rest) = _ := lexemes_identifier w.isIdentifier rfl (by decide) rest
  have hclose : lexemes (')' :: rest) = _ := lexemes_sign .rightParen (fun _ => rfl) (by decide) _
  have hopen : lexemes ('$' :: (['('] ++ (w.text ++ ')' :: rest))) = _ :=
    lexemes_cons rfl (by decide)
  rw [hname, hclose] at hopen
  simpa [Word.reference, referenceLexed] using hopen

/-- **The lexemes of a formula** are those of its parts. -/
theorem lexes_print (f : Formula) : Lexes f.print f.lexed := by
  induction f with
  | atom property isEqual word =>
    intro rest
    have hproperty : Lexes (quote property.reference) _ :=
      lexes_quote fun rest => lexes_reference property ('\'' :: rest)
    have hword : Lexes (quote word.text) (quoteLexed [(.identifier, word.text)]) :=
      lexes_quote fun rest => lexemes_identifier word.isIdentifier rfl (by decide) rest
    have hbehind : ∀ d ∈ (quote word.text ++ rest).head?, Text.isMarkupSpace d = false := by
      intro d hd
      cases hd
      rfl
    rw [print, List.append_assoc, hproperty, List.cons_append, List.append_assoc, List.cons_append,
      lexemes_spaced (WrittenCondition.lexemes_comparison _) (comparison isEqual).exists_head hbehind,
      hword, lexed, spaced]
    simp
  | negation operand ih =>
    intro rest
    have hoperand := ih.enclose (operand.isLoose .term)
    -- No operand begins with `=`, so the `!` in front of it is not read as a part of `!=`.
    obtain ⟨d, t, hprint, hd⟩ := exists_head (operand.isLoose .term) operand
    have hne : d ≠ '=' := by rcases hd with rfl | rfl | rfl <;> decide
    have hread : readToken '!' ([] ++ (enclose (operand.isLoose .term) operand.print ++ rest)) =
        (.bang, 1) := by
      rw [hprint]
      exact if_neg (by simpa using hne)
    have hbang := lexemes_cons hread (by decide)
    rw [hoperand] at hbang
    exact hbang
  | junction op word left right ihleft ihright =>
    intro rest
    have hleft := ihleft.enclose (left.isLoose (leftStrength op))
    have hright := ihright.enclose (right.isLoose (rightStrength op))
    have hword := lexemes_identifier word.isIdentifier (d := ' ') rfl (by decide)
    rw [print, List.append_assoc, hleft, List.cons_append, List.append_assoc, List.cons_append,
      lexemes_spaced hword word.exists_head (head_enclose _ right rest), hright, lexed, spaced]
    simp

/-! ## The reading of formulas -/

end Formula

/-- What is inside the quotes around some tokens is the text of the tokens. -/
theorem slice_between {t : Text} {p q : Token} {as : List Token}
    (hwithin : p :: (as ++ [q]) <:+: tokens t) (hp : p.text = ['\'']) (hq : q.text = ['\'']) :
    t.slice (p.start + 1) (q.span.stop - 1) = as.flatMap Token.text := by
  obtain ⟨front, back, hall⟩ := hwithin
  have hstand := stand_tokens t
  rw [← hall] at hstand
  obtain ⟨_, hfront, -⟩ := hstand.of_append
  obtain ⟨_, -, hquoted⟩ := hfront.of_append
  obtain ⟨_, hinside, hclose⟩ := hquoted.tail.of_append
  obtain ⟨-, rfl, -⟩ := hclose.head
  have hstart : p.span.stop = p.start + 1 := congrArg (fun w => p.start + Text.width w) hp
  have hstop : q.span.stop - 1 = q.start := congrArg (fun w => q.start + Text.width w - 1) hq
  rw [← hstart, hstop]
  exact hinside.covers.slice_eq

/-- A reference that names a property is one node. -/
theorem readProperty_name (stop start : Nat) {i c : Token} (hname : i.kind = .identifier)
    (hclose : c.kind = .rightParen) (rest : List Token) :
    readProperty stop start (i :: c :: rest) =
      .ok (.property ⟨start, c.span.stop⟩ (some ⟨i.span, i.text⟩) false, rest) := by
  have hskip : skipSpace (i :: c :: rest) = i :: c :: rest := skipSpace_cons (by rw [hname]; nofun) _
  have hskip' : skipSpace (c :: rest) = c :: rest := skipSpace_cons (by rw [hclose]; nofun) _
  simp [readProperty, hskip, takeSymbol, hname, hskip', hclose, closeConstruct, bind, Except.bind,
    pure, Except.pure]

/-- So is a text run that is such a reference. -/
theorem readRun_reference (stop : Nat) {ends : TokenKind → Bool} {o i c : Token} {rest : List Token}
    (hopen : o.kind = .propertyOpen) (hname : i.kind = .identifier) (hclose : c.kind = .rightParen)
    (hends : ends .propertyOpen = false) (hrest : ∀ q ∈ rest.head?, ends q.kind = true) {n : Nat}
    (hn : 1 < n) :
    readRun stop ends n (o :: i :: c :: rest) =
      .ok ([.property ⟨o.start, c.span.stop⟩ (some ⟨i.span, i.text⟩) false], rest) := by
  obtain ⟨n, rfl⟩ : ∃ m, n = m + 2 := ⟨n - 2, by omega⟩
  have hstop : readRun stop ends (n + 1) rest = .ok ([], rest) := by
    cases rest with
    | nil => rw [readRun]
    | cons q rest => rw [readRun, if_pos (hrest q rfl)]
  rw [readRun, hopen, hends]
  simp only [readProperty_name stop o.start hname hclose, hstop, bind, Except.bind, pure, Except.pure]
  rfl

namespace Formula

variable {t : Text} {stop : Nat} {ts : List Token}

/-- What is between quotes is read as an operand with it inside. -/
theorem readsOperand_quote {ls : List Lexeme} (hts : ts.map Token.lexeme = quoteLexed ls)
    (hwithin : ts <:+: tokens t)
    (hrun : ∀ {as : List Token} {q : Token}, as.map Token.lexeme = ls → q.kind = .quote →
      ∀ {n : Nat} (rest : List Token), as.length < n → ∃ parts,
        readRun stop (fun kind => kind == .quote) n (as ++ q :: rest) = .ok (parts, q :: rest)) :
    ReadsOperand stop ts fun e => ∃ (s : Span) (parts : List Expr), e = .quoted s parts ∧
      t.slice (s.start + 1) (s.stop - 1) = ls.flatMap Prod.snd := by
  obtain ⟨p, as, q, rfl, hp, has, hq⟩ := exists_between hts
  have hinside : t.slice (p.start + 1) (q.span.stop - 1) = ls.flatMap Prod.snd := by
    rw [slice_between hwithin (congrArg Prod.snd hp) (congrArg Prod.snd hq), ← has, List.flatMap_map]
    rfl
  refine .quoted (S := fun _ => True) (congrArg Prod.fst hp) ?_ fun _ => ⟨_, _, rfl, hinside⟩
  intro n rest hn
  obtain ⟨parts, hparts⟩ := hrun has (congrArg Prod.fst hq) rest hn
  exact ⟨parts, hparts, trivial⟩

theorem readsOperand_reference {w : Word} (hts : ts.map Token.lexeme = quoteLexed (referenceLexed w))
    (hwithin : ts <:+: tokens t) :
    ReadsOperand stop ts fun e => ∃ (s : Span) (parts : List Expr), e = .quoted s parts ∧
      t.slice (s.start + 1) (s.stop - 1) = w.reference := by
  have htext : (referenceLexed w).flatMap Prod.snd = w.reference := by
    simp [referenceLexed, Word.reference]
  rw [← htext]
  refine readsOperand_quote hts hwithin ?_
  intro as q has hq n rest hn
  obtain ⟨o, us, rfl, ho, hus⟩ := List.map_eq_cons_iff.1 has
  obtain ⟨i, us, rfl, hi, hus⟩ := List.map_eq_cons_iff.1 hus
  obtain ⟨c, rfl, hc⟩ := List.map_eq_singleton_iff.1 hus
  refine ⟨_, readRun_reference stop (congrArg Prod.fst ho) (congrArg Prod.fst hi) (congrArg Prod.fst hc)
    rfl ?_ (Nat.lt_of_le_of_lt (by simp) hn)⟩
  intro q' hq'
  cases hq'
  rw [hq]
  rfl

theorem readsOperand_word {w : Word} (hts : ts.map Token.lexeme = quoteLexed [(.identifier, w.text)])
    (hwithin : ts <:+: tokens t) :
    ReadsOperand stop ts fun e => ∃ (s : Span) (parts : List Expr), e = .quoted s parts ∧
      t.slice (s.start + 1) (s.stop - 1) = w.text := by
  have htext : [((.identifier, w.text) : Lexeme)].flatMap Prod.snd = w.text := List.append_nil _
  rw [← htext]
  refine readsOperand_quote hts hwithin ?_
  intro as q has hq n rest hn
  obtain ⟨i, rfl, hi⟩ := List.map_eq_singleton_iff.1 has
  have hkind : i.kind = .identifier := congrArg Prod.fst hi
  have hinert : ∀ u ∈ [i], u.kind.isInert = true := List.forall_mem_singleton.2 (by rw [hkind]; rfl)
  obtain ⟨parts, hparts, -⟩ := readRun_inert stop hq rest hinert hn
  exact ⟨parts, hparts⟩

/-- What is in parentheses where it needs them is read as a tree of the same formula. -/
theorem readsBy_enclose {f : Formula} {needed : Strength}
    (h : ∀ {ts}, ts.map Token.lexeme = f.lexed → ts <:+: tokens t →
      ReadsBy stop f.strength ts (f.IsTree t))
    (hts : ts.map Token.lexeme = encloseLexed (f.isLoose needed) f.lexed) (hwithin : ts <:+: tokens t) :
    ReadsBy stop needed ts (f.IsTree t) := by
  obtain ⟨as, henclosed, has⟩ := exists_enclosed hts
  exact (h has (henclosed.isInfix.trans hwithin)).enclose henclosed .group

/-- **The tokens of a formula are read as a tree of it**, by the reader of its strength. -/
theorem readsBy (f : Formula) (hts : ts.map Token.lexeme = f.lexed) (hwithin : ts <:+: tokens t) :
    ReadsBy stop f.strength ts (f.IsTree t) := by
  -- That the tokens stand together in the text is passed on to the parts, down to what is in quotes.
  induction f generalizing ts with
  | atom property isEqual word =>
    obtain ⟨as, w, bs, hspaced, has, hw, hbs⟩ := exists_spaced hts
    refine ReadsTerm.compare (readsOperand_reference has (hspaced.left_isInfix.trans hwithin))
      (readsOperand_word hbs (hspaced.right_isInfix.trans hwithin)) hspaced (congrArg Prod.fst hw) ?_
    rintro s e e' ⟨left, parts, rfl, hleft⟩ ⟨right, parts', rfl, hright⟩
    exact .atom hleft hright
  | negation operand ih =>
    obtain ⟨w, ts, rfl, hw, hts⟩ := List.map_eq_cons_iff.1 hts
    have hwithin' : ts <:+: tokens t := (List.suffix_cons w ts).isInfix.trans hwithin
    exact ReadsTerm.negation (readsBy_enclose ih hts hwithin') (congrArg Prod.fst hw) .negation
  | junction op word left right ihleft ihright =>
    obtain ⟨as, w, bs, hspaced, has, hw, hbs⟩ := exists_spaced hts
    have hleft := readsBy_enclose ihleft has (hspaced.left_isInfix.trans hwithin)
    have hright := readsBy_enclose ihright hbs (hspaced.right_isInfix.trans hwithin)
    cases op with
    | conjunction => exact ReadsConjunction.junction hleft hright hspaced (word.joins hw) .junction
    | disjunction => exact ReadsDisjunction.junction hleft hright hspaced (word.joins hw) .junction

/-- What the lexemes of a formula begin with. -/
theorem exists_lexed (loose : Bool) (f : Formula) :
    ∃ l ls, encloseLexed loose f.lexed = l :: ls ∧ l.1 ≠ .space := by
  cases loose with
  | true => exact ⟨_, _, rfl, nofun⟩
  | false =>
    induction f with
    | atom property isEqual word => exact ⟨_, _, rfl, nofun⟩
    | negation operand => exact ⟨_, _, rfl, nofun⟩
    | junction op word left right ihleft =>
      cases hloose : left.isLoose (leftStrength op) with
      | true => exact ⟨(.leftParen, ['(']), _, by rw [encloseLexed, lexed, hloose]; rfl, nofun⟩
      | false =>
        obtain ⟨l, ls, hlexed, hl⟩ := ihleft
        exact ⟨l, _, by rw [encloseLexed, lexed, hloose, hlexed]; rfl, hl⟩

/-- **A formula that is written down is read as a tree of it.** -/
theorem exists_parseCondition_print (f : Formula) :
    ∃ e, parseCondition f.print = .ok e ∧ f.IsTree f.print e := by
  have hlexed : (tokens f.print).map Token.lexeme = f.lexed := by
    have hall := lexes_print f []
    rw [List.append_nil] at hall
    exact hall.trans (List.append_nil _)
  obtain ⟨l, ls, hfirst, hspace⟩ := exists_lexed false f
  obtain ⟨u, us, htokens, hu, -⟩ := List.map_eq_cons_iff.1 (hlexed.trans hfirst)
  have hkind : u.kind = l.1 := congrArg Prod.fst hu
  exact (f.readsBy hlexed List.infix_rfl).disjunction.parseCondition ⟨u, us, htokens, by rwa [hkind]⟩

end Formula

end ProjectFile.Expression
