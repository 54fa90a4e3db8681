import ProjectFile.Proofs.Expression.Productions

/-!
Conditions are read back as they were written (`parseCondition_print`).

For each strength of binding it is said what it means for lexemes to be read as a tree by the reader
of that strength: all tokens that have the lexemes are read as a tree that is the given one, but for
spans and parentheses (`asTerm_iff` and so on). So the productions of tokens are productions of
lexemes (`AsTerm.compare`, `AsConjunction.junction` and so on), and a condition is read by induction
on how it is written.
-/

namespace ProjectFile.Expression

/-! ## Bare trees -/

namespace Expr

theorem mapSpanAll_ungroupedAll (es : List Expr) :
    mapSpanAll (fun _ => default) (ungroupedAll es) = es.map bare := by
  induction es with
  | nil => rfl
  | cons e es ih => rw [ungroupedAll, mapSpanAll, ih]; rfl

theorem bare_quoted (s : Span) (parts : List Expr) :
    (quoted s parts).bare = quoted default (parts.map bare) := by
  rw [← mapSpanAll_ungroupedAll]
  rfl

theorem bare_call (s : Span) (f : Symbol) (arguments : List Expr) :
    (call s f arguments).bare = call default ⟨default, f.name⟩ (arguments.map bare) := by
  rw [← mapSpanAll_ungroupedAll]
  rfl

theorem bare_compare (s : Span) (op : Comparison) (left right : Expr) :
    (compare s op left right).bare = compare default op left.bare right.bare := rfl

theorem bare_negation (s : Span) (e : Expr) : (negation s e).bare = negation default e.bare := rfl

theorem bare_junction (s : Span) (op : Junction) (left right : Expr) :
    (junction s op left right).bare = junction default op left.bare right.bare := rfl

end Expr

/-! ## Reading by strength -/

/-- Whether lexemes are read as an operand: it ends where they end, whatever comes behind. -/
structure AsOperand (ls : List Lexeme) (x : Expr) : Prop where
  starts : ∃ l ls', ls = l :: ls' ∧ l.1 ≠ .space ∧ l.1 ≠ .bang
  read : ∀ (stop : Nat) {n : Nat} {t : Token} {ts : List Token} (rest : List Token),
    (t :: ts).map Token.lexeme = ls → 4 * ls.length ≤ n →
    ∃ e, readOperand stop n t (ts ++ rest) = .ok (e, rest) ∧ e.bare = x

/-- Whether lexemes are read as a term: it ends where they end if no comparison comes behind. -/
def AsTerm (ls : List Lexeme) (x : Expr) : Prop :=
  ∀ (stop : Nat) {n : Nat} {tokens ts rest : List Token}, ts.map Token.lexeme = ls →
    skipSpace tokens = skipSpace (ts ++ rest) → NextIsNot Token.isComparison rest →
    4 * ls.length + 1 ≤ n →
    ∃ e left, readNot stop n tokens = .ok (e, left) ∧ skipSpace left = skipSpace rest ∧ e.bare = x

/-- Whether lexemes are read as a conjunction, or its left side: there the reader comes to look for
another `and`. -/
def AsConjunction (ls : List Lexeme) (x : Expr) : Prop :=
  ∀ (stop : Nat) {n : Nat} {tokens ts rest : List Token}, ts.map Token.lexeme = ls →
    skipSpace tokens = skipSpace (ts ++ rest) → NextIsNot Token.isComparison rest →
    4 * ls.length + 2 ≤ n →
    ∃ e m left, n ≤ m + ls.length + 1 ∧ readAnd stop n tokens = readMoreAnd stop m e left ∧
      skipSpace left = skipSpace rest ∧ e.bare = x

/-- Whether lexemes are read as a disjunction, or its left side: there the reader comes to look for
another `or`. -/
def AsDisjunction (ls : List Lexeme) (x : Expr) : Prop :=
  ∀ (stop : Nat) {n : Nat} {tokens ts rest : List Token}, ts.map Token.lexeme = ls →
    skipSpace tokens = skipSpace (ts ++ rest) → NextIsNot Token.isComparison rest →
    NextIsNot (fun t => t.isWord andWord) rest → 4 * ls.length + 3 ≤ n →
    ∃ e m left, n ≤ m + ls.length + 1 ∧ readOr stop n tokens = readMoreOr stop m e left ∧
      skipSpace left = skipSpace rest ∧ e.bare = x

/-! ### Lexemes and tokens -/

section

variable {ls ms : List Lexeme} {x y : Expr}

theorem AsOperand.reads (h : AsOperand ls x) (stop : Nat) {ts : List Token}
    (hts : ts.map Token.lexeme = ls) : ReadsOperand stop ts (·.bare = x) := by
  obtain ⟨l, ls', rfl, hspace, hbang⟩ := h.starts
  obtain ⟨t, ts', rfl, hl, -⟩ := List.map_eq_cons_iff.1 hts
  have hkind : t.kind = l.1 := congrArg Prod.fst hl
  refine ⟨t, ts', rfl, by rwa [hkind], by rwa [hkind], fun rest hn => h.read stop rest hts ?_⟩
  rwa [← hts, List.length_map]

theorem AsOperand.of_reads (hstarts : ∃ l ls', ls = l :: ls' ∧ l.1 ≠ .space ∧ l.1 ≠ .bang)
    (h : ∀ stop ts, ts.map Token.lexeme = ls → ReadsOperand stop ts (·.bare = x)) :
    AsOperand ls x where
  starts := hstarts
  read := by
    intro stop n t ts rest hts hn
    obtain ⟨t', ts', hcons, -, -, hread⟩ := h stop (t :: ts) hts
    obtain ⟨rfl, rfl⟩ := List.cons.inj hcons
    rw [← hts, List.length_map] at hn
    exact hread rest hn

theorem asTerm_iff :
    AsTerm ls x ↔ ∀ stop ts, ts.map Token.lexeme = ls → ReadsTerm stop ts (·.bare = x) := by
  constructor
  · intro h stop ts hts n tokens rest htokens hrest hn
    rw [← List.length_map Token.lexeme, hts] at hn
    exact h stop hts htokens hrest hn
  · intro h stop n tokens ts rest hts htokens hrest hn
    rw [← hts, List.length_map] at hn
    exact h stop ts hts htokens hrest hn

theorem asConjunction_iff :
    AsConjunction ls x ↔
      ∀ stop ts, ts.map Token.lexeme = ls → ReadsConjunction stop ts (·.bare = x) := by
  constructor
  · intro h stop ts hts n tokens rest htokens hrest hn
    rw [← List.length_map Token.lexeme, hts] at hn ⊢
    exact h stop hts htokens hrest hn
  · intro h stop n tokens ts rest hts htokens hrest hn
    rw [← hts, List.length_map] at hn ⊢
    exact h stop ts hts htokens hrest hn

theorem asDisjunction_iff :
    AsDisjunction ls x ↔
      ∀ stop ts, ts.map Token.lexeme = ls → ReadsDisjunction stop ts (·.bare = x) := by
  constructor
  · intro h stop ts hts n tokens rest htokens hrest hnext hn
    rw [← List.length_map Token.lexeme, hts] at hn ⊢
    exact h stop hts htokens hrest hnext hn
  · intro h stop n tokens ts rest hts htokens hrest hnext hn
    rw [← hts, List.length_map] at hn ⊢
    exact h stop ts hts htokens hrest hnext hn

/-! ### Productions -/

/-- A comparison of two operands is a term. -/
theorem AsTerm.compare (hl : AsOperand ls x) (hr : AsOperand ms y) (op : Comparison) (word : Text) :
    AsTerm (spaced ls (.comparison op, word) ms) (.compare default op x y) := by
  refine asTerm_iff.2 fun stop ts hts => ?_
  obtain ⟨as, w, bs, hspaced, has, hw, hbs⟩ := exists_spaced hts
  refine .compare (hl.reads stop has) (hr.reads stop hbs) hspaced (congrArg Prod.fst hw) ?_
  intro s e e' hx hy
  rw [Expr.bare_compare, hx, hy]

/-- A term with `!` in front is a term. -/
theorem AsTerm.negation (h : AsTerm ls x) (word : Text) :
    AsTerm ((.bang, word) :: ls) (.negation default x) := by
  refine asTerm_iff.2 fun stop ts hts => ?_
  obtain ⟨t, ts, rfl, ht, hts⟩ := List.map_eq_cons_iff.1 hts
  refine .negation (asTerm_iff.1 h stop ts hts) (congrArg Prod.fst ht) ?_
  intro s e hx
  rw [Expr.bare_negation, hx]

/-- A conjunction goes on with a term. -/
theorem AsConjunction.junction (hl : AsConjunction ls x) (hr : AsTerm ms y)
    (word : Spelling .conjunction) :
    AsConjunction (spaced ls (.identifier, word.text) ms) (.junction default .conjunction x y) := by
  refine asConjunction_iff.2 fun stop ts hts => ?_
  obtain ⟨as, w, bs, hspaced, has, hw, hbs⟩ := exists_spaced hts
  refine .junction (asConjunction_iff.1 hl stop as has) (asTerm_iff.1 hr stop bs hbs) hspaced
    (word.joins hw) ?_
  intro s e e' hx hy
  rw [Expr.bare_junction, hx, hy]

/-- A disjunction goes on with a conjunction. -/
theorem AsDisjunction.junction (hl : AsDisjunction ls x) (hr : AsConjunction ms y)
    (word : Spelling .disjunction) :
    AsDisjunction (spaced ls (.identifier, word.text) ms) (.junction default .disjunction x y) := by
  refine asDisjunction_iff.2 fun stop ts hts => ?_
  obtain ⟨as, w, bs, hspaced, has, hw, hbs⟩ := exists_spaced hts
  refine .junction (asDisjunction_iff.1 hl stop as has) (asConjunction_iff.1 hr stop bs hbs) hspaced
    (word.joins hw) ?_
  intro s e e' hx hy
  rw [Expr.bare_junction, hx, hy]

/-! ### Operands -/

/-- A disjunction in parentheses is an operand. -/
theorem AsDisjunction.group (h : AsDisjunction ls x) (opening closing : Text) :
    AsOperand ((.leftParen, opening) :: (ls ++ [(.rightParen, closing)])) x := by
  refine .of_reads ⟨_, _, rfl, nofun, nofun⟩ fun stop ts hts => ?_
  obtain ⟨p, as, q, rfl, hp, has, hq⟩ := exists_between hts
  exact (asDisjunction_iff.1 h stop as has).group (congrArg Prod.fst hp) (congrArg Prod.fst hq) id

/-- Plain text between quotes is an operand. -/
theorem AsOperand.quoted (value : PlainText) (opening closing : Text) :
    AsOperand ((.quote, opening) :: (lexemes value.text ++ [(.quote, closing)]))
      (.quoted default (if value.text = [] then [] else [.literal default value.text])) := by
  refine .of_reads ⟨_, _, rfl, nofun, nofun⟩ fun stop ts hts => ?_
  obtain ⟨p, as, q, rfl, hp, has, hq⟩ := exists_between hts
  have hinert : ∀ u ∈ as, u.kind.isInert = true := by
    intro u hu
    have hmem : u.lexeme ∈ lexemes value.text := has ▸ List.mem_map_of_mem hu
    obtain ⟨v, hv, hlexeme⟩ := List.mem_map.1 hmem
    have hkind : v.kind = u.kind := congrArg Prod.fst hlexeme
    rw [← hkind]
    exact isInert_tokensFrom value.plain 0 0 v hv
  have htext : as.flatMap Token.text = value.text := by
    have hall := flatMap_snd_lexemes value.text
    rw [← has, List.flatMap_map] at hall
    exact hall
  refine .quoted (congrArg Prod.fst hp)
    (fun rest hn => readRun_inert stop (congrArg Prod.fst hq) rest hinert hn) ?_
  intro parts hliteral
  rw [Expr.bare_quoted]
  rcases hliteral with ⟨rfl, rfl⟩ | ⟨hne, s, rfl⟩
  · rw [if_pos (show value.text = [] from htext.symm)]
    rfl
  · have hfull : value.text ≠ [] := by
      intro hempty
      rw [hempty] at has
      exact hne (List.map_eq_nil_iff.1 has)
    rw [if_neg hfull, htext]
    rfl

/-! ### Calls -/

/-- Whether lexemes are read as arguments, one or more, up to the parenthesis behind them. -/
def AsMoreArguments (ls : List Lexeme) (xs : List Expr) : Prop :=
  ∀ (stop : Nat) {n : Nat} {tokens ts rest : List Token} {p : Token}, ts.map Token.lexeme = ls →
    skipSpace tokens = skipSpace (ts ++ p :: rest) → p.kind = .rightParen → 4 * ls.length + 4 ≤ n →
    ∃ es, readMoreArguments stop n tokens = .ok (es, p :: rest) ∧ es.map Expr.bare = xs

theorem AsDisjunction.asMoreArguments (h : AsDisjunction ls x) : AsMoreArguments ls [x] := by
  intro stop n tokens ts rest p hts htokens hp hn
  obtain ⟨n, rfl⟩ := Nat.exists_eq_add_one_of_ne_zero (show n ≠ 0 by omega)
  rw [← hts, List.length_map] at hn
  obtain ⟨e, he, hx⟩ := (asDisjunction_iff.1 h stop ts hts).read_closed (n := n) htokens (.inl hp)
    (by omega)
  refine ⟨[e], ?_, congrArg (fun x => [x]) hx⟩
  have hcomma : p.kind ≠ .comma := by rw [hp]; nofun
  rw [readMoreArguments, he]
  simp only [bind, Except.bind, if_neg hcomma]
  rfl

theorem AsMoreArguments.cons {xs : List Expr} (h : AsDisjunction ls x) (hs : AsMoreArguments ms xs)
    (comma : Text) : AsMoreArguments (ls ++ (.comma, comma) :: (.space, [' ']) :: ms) (x :: xs) := by
  intro stop n tokens ts rest p hts htokens hp hn
  obtain ⟨as, us, rfl, has, hus⟩ := List.map_eq_append_iff.1 hts
  obtain ⟨c, us, rfl, hc, hus⟩ := List.map_eq_cons_iff.1 hus
  obtain ⟨s, bs, rfl, hs', hbs⟩ := List.map_eq_cons_iff.1 hus
  have hcomma : c.kind = .comma := congrArg Prod.fst hc
  have hspace : s.kind = .space := congrArg Prod.fst hs'
  have hlength : as.length = ls.length := by rw [← has, List.length_map]
  rw [List.length_append, List.length_cons, List.length_cons] at hn
  obtain ⟨n, rfl⟩ := Nat.exists_eq_add_one_of_ne_zero (show n ≠ 0 by omega)
  rw [List.append_assoc, List.cons_append, List.cons_append] at htokens
  obtain ⟨e, he, hx⟩ := (asDisjunction_iff.1 h stop as has).read_closed (n := n) htokens (.inr hcomma)
    (by omega)
  obtain ⟨es, hes, hxs⟩ := hs stop hbs (skipSpace_space hspace (bs ++ p :: rest)) hp
    (show 4 * ms.length + 4 ≤ n by omega)
  refine ⟨e :: es, ?_, by rw [List.map_cons, hx, hxs]⟩
  rw [readMoreArguments, he]
  simp only [bind, Except.bind, if_pos hcomma]
  rw [hes]
  rfl

/-- Whether lexemes are read as all arguments of a call, of which there may be none. -/
def AsArguments (ls : List Lexeme) (xs : List Expr) : Prop :=
  ∀ (stop : Nat) {n : Nat} {ts : List Token} {p : Token} (rest : List Token),
    ts.map Token.lexeme = ls → p.kind = .rightParen → 4 * ls.length + 5 ≤ n →
    ∃ es, readArguments stop n (ts ++ p :: rest) = .ok (es, p :: rest) ∧ es.map Expr.bare = xs

theorem AsArguments.nil : AsArguments [] [] := by
  intro stop n ts p rest hts hp hn
  obtain rfl := List.map_eq_nil_iff.1 hts
  obtain ⟨n, rfl⟩ := Nat.exists_eq_add_one_of_ne_zero (show n ≠ 0 by omega)
  have hskip : skipSpace (p :: rest) = p :: rest := skipSpace_cons (by rw [hp]; nofun) rest
  have hnone : ((p :: rest).head?.map Token.kind) = some .rightParen := congrArg some hp
  refine ⟨[], ?_, rfl⟩
  rw [List.nil_append, readArguments, hskip, if_pos hnone]

theorem AsMoreArguments.asArguments {xs : List Expr} (h : AsMoreArguments ls xs)
    (hfirst : ∃ l ls', ls = l :: ls' ∧ l.1 ≠ .space ∧ l.1 ≠ .rightParen) : AsArguments ls xs := by
  intro stop n ts p rest hts hp hn
  obtain ⟨l, ls', rfl, hspace, hclose⟩ := hfirst
  obtain ⟨t, ts, rfl, ht, -⟩ := List.map_eq_cons_iff.1 hts
  obtain ⟨n, rfl⟩ := Nat.exists_eq_add_one_of_ne_zero (show n ≠ 0 by omega)
  have hkind : t.kind = l.1 := congrArg Prod.fst ht
  rw [← hkind] at hspace hclose
  obtain ⟨es, hes, hxs⟩ := h stop hts (rfl : skipSpace (t :: ts ++ p :: rest) = _) hp
    (show 4 * (l :: ls').length + 4 ≤ n by omega)
  have hsome : ¬ ((t :: (ts ++ p :: rest)).head?.map Token.kind) = some .rightParen := fun h =>
    hclose (Option.some.inj h)
  refine ⟨es, ?_, hxs⟩
  rw [List.cons_append, readArguments, skipSpace_cons hspace, if_neg hsome]
  exact hes

/-- A call of a function is an operand. -/
theorem AsArguments.call {xs : List Expr} (h : AsArguments ls xs) (function opening closing : Text) :
    AsOperand ((.identifier, function) :: (.leftParen, opening) :: (ls ++ [(.rightParen, closing)]))
      (.call default ⟨default, function⟩ xs) where
  starts := ⟨_, _, rfl, nofun, nofun⟩
  read := by
    intro stop n t ts rest hts hn
    obtain ⟨ht, hts⟩ := List.cons.inj hts
    obtain ⟨u, us, rfl, hu, hus⟩ := List.map_eq_cons_iff.1 hts
    obtain ⟨as, ps, rfl, has, hps⟩ := List.map_eq_append_iff.1 hus
    obtain ⟨p, ps, rfl, hp, hps⟩ := List.map_eq_cons_iff.1 hps
    obtain rfl := List.map_eq_nil_iff.1 hps
    rw [List.length_cons, List.length_cons, List.length_append, List.length_singleton] at hn
    obtain ⟨n, rfl⟩ := Nat.exists_eq_add_one_of_ne_zero (show n ≠ 0 by omega)
    have hname : t.kind = .identifier := congrArg Prod.fst ht
    have htext : t.text = function := congrArg Prod.snd ht
    have hopen : u.kind = .leftParen := congrArg Prod.fst hu
    have hclose : p.kind = .rightParen := congrArg Prod.fst hp
    obtain ⟨es, hes, hxs⟩ := h stop rest has hclose (show 4 * ls.length + 5 ≤ n by omega)
    have hquote : t.kind ≠ .quote := by rw [hname]; nofun
    have hgroup : t.kind ≠ .leftParen := by rw [hname]; nofun
    have hcall : beginsCall (t :: u :: (as ++ p :: rest)) = true := by
      rw [beginsCall, hname, hopen]
      rfl
    refine ⟨.call ⟨t.start, p.span.stop⟩ ⟨t.span, t.text⟩ es, ?_, ?_⟩
    · rw [List.cons_append, List.append_assoc, List.cons_append, List.nil_append, readOperand,
        if_neg hquote, if_neg hgroup, if_pos hcall]
      show (readArguments stop n (as ++ p :: rest) >>= _) = _
      rw [hes]
      simp only [bind, Except.bind, closeParenthesis, if_pos hclose]
      rfl
    · rw [Expr.bare_call, hxs, htext]

end

/-! ## Conditions -/

namespace WrittenCondition

/-- Whether lexemes are read as a tree by the reader of a strength. -/
def Reads : Strength → List Lexeme → Expr → Prop
  | .operand => AsOperand
  | .term => AsTerm
  | .conjunction => AsConjunction
  | .disjunction => AsDisjunction

theorem Reads.readsBy {strength : Strength} {ls : List Lexeme} {x : Expr} (h : Reads strength ls x)
    (stop : Nat) {ts : List Token} (hts : ts.map Token.lexeme = ls) :
    ReadsBy stop strength ts (·.bare = x) := by
  match strength with
  | .operand => exact AsOperand.reads h stop hts
  | .term => exact asTerm_iff.1 h stop ts hts
  | .conjunction => exact asConjunction_iff.1 h stop ts hts
  | .disjunction => exact asDisjunction_iff.1 h stop ts hts

/-- What is bound tightly is read where less is asked for too. -/
theorem Reads.weaken {needed strength : Strength} {ls : List Lexeme} {x : Expr}
    (h : Reads strength ls x) (hle : needed.rank ≤ strength.rank) : Reads needed ls x := by
  match needed, strength with
  | .operand, .operand => exact h
  | .term, _ => exact asTerm_iff.2 fun stop _ hts => (h.readsBy stop hts).weaken hle
  | .conjunction, _ => exact asConjunction_iff.2 fun stop _ hts => (h.readsBy stop hts).weaken hle
  | .disjunction, _ => exact asDisjunction_iff.2 fun stop _ hts => (h.readsBy stop hts).weaken hle

theorem Reads.asDisjunction {strength : Strength} {ls : List Lexeme} {x : Expr}
    (h : Reads strength ls x) : AsDisjunction ls x :=
  (h.weaken (Nat.zero_le _) : Reads .disjunction ls x)

/-- What is in parentheses where it needs them is read as is asked for. -/
theorem Reads.enclose {c : WrittenCondition} {x : Expr} (h : Reads c.strength c.lexed x)
    (needed : Strength) : Reads needed (encloseLexed (c.isLoose needed) c.lexed) x := by
  unfold encloseLexed
  split
  · have hgroup : Reads .operand _ x := h.asDisjunction.group ['('] [')']
    exact hgroup.weaken (by cases needed <;> decide)
  · next hloose =>
    rw [isLoose, decide_eq_true_eq, Nat.not_lt] at hloose
    exact h.weaken hloose

/-- What the lexemes of a condition begin with. -/
theorem exists_lexed : ∀ (loose : Bool) (c : WrittenCondition), ∃ l ls,
    encloseLexed loose c.lexed = l :: ls ∧ l.1 ≠ .space ∧ l.1 ≠ .rightParen
  | true, c => ⟨_, _, rfl, nofun, nofun⟩
  | false, .quoted value => ⟨_, _, rfl, nofun, nofun⟩
  | false, .negation operand => ⟨_, _, rfl, nofun, nofun⟩
  | false, .call function arguments => ⟨_, _, rfl, nofun, nofun⟩
  | false, .compare op left right => by
    obtain ⟨l, ls, hlexed, hl⟩ := exists_lexed (left.isLoose .operand) left
    exact ⟨l, _, by rw [encloseLexed, lexed, hlexed]; rfl, hl⟩
  | false, .junction op word left right => by
    obtain ⟨l, ls, hlexed, hl⟩ := exists_lexed (left.isLoose (leftStrength op)) left
    exact ⟨l, _, by rw [encloseLexed, lexed, hlexed]; rfl, hl⟩

theorem exists_lexedAll (c : WrittenCondition) (cs : List WrittenCondition) :
    ∃ l ls, lexedAll (c :: cs) = l :: ls ∧ l.1 ≠ .space ∧ l.1 ≠ .rightParen := by
  obtain ⟨l, ls, hlexed, hl⟩ := exists_lexed false c
  have hfirst : c.lexed = l :: ls := hlexed
  cases cs with
  | nil => exact ⟨l, ls, hfirst, hl⟩
  | cons d cs => exact ⟨l, _, by rw [lexedAll, hfirst]; rfl, hl⟩

/-- Arguments are read if they are where there are any. -/
theorem asArguments_of {cs : List WrittenCondition}
    (h : cs ≠ [] → AsMoreArguments (lexedAll cs) (exprAll cs)) :
    AsArguments (lexedAll cs) (exprAll cs) := by
  cases cs with
  | nil => exact .nil
  | cons c cs => exact (h (List.cons_ne_nil c cs)).asArguments (exists_lexedAll c cs)

mutual

/-- **A condition is read as the tree that it stands for**, by the reader of its strength. -/
theorem reads : ∀ c : WrittenCondition, Reads c.strength c.lexed c.expr
  | .quoted value => AsOperand.quoted value _ _
  | .call _ arguments => (asArguments_of (reads_arguments arguments)).call _ _ _
  | .compare op left right =>
    AsTerm.compare ((reads left).enclose .operand) ((reads right).enclose .operand) op _
  | .negation operand => AsTerm.negation ((reads operand).enclose .term) _
  | .junction .conjunction word left right =>
    AsConjunction.junction ((reads left).enclose .conjunction) ((reads right).enclose .term) word
  | .junction .disjunction word left right =>
    AsDisjunction.junction ((reads left).enclose .disjunction) ((reads right).enclose .conjunction) word

/-- So are its arguments. -/
theorem reads_arguments : ∀ cs : List WrittenCondition, cs ≠ [] →
    AsMoreArguments (lexedAll cs) (exprAll cs)
  | [], h => absurd rfl h
  | [c], _ => (reads c).asDisjunction.asMoreArguments
  | c :: d :: cs, _ =>
    .cons (reads c).asDisjunction (reads_arguments (d :: cs) (List.cons_ne_nil d cs)) _

end

/-- **A condition that is written down is read back.** -/
theorem parseCondition_print (c : WrittenCondition) :
    ∃ e, parseCondition c.print = .ok e ∧ e.bare = c.expr := by
  have hlexed : (tokens c.print).map Token.lexeme = c.lexed := lexemes_print c
  obtain ⟨l, ls, hfirst, hspace, -⟩ := exists_lexed false c
  have hcons : c.lexed = l :: ls := hfirst
  obtain ⟨t, ts, htokens, ht, -⟩ := List.map_eq_cons_iff.1 (hlexed.trans hcons)
  have hkind : t.kind = l.1 := congrArg Prod.fst ht
  have hreads := asDisjunction_iff.1 (reads c).asDisjunction c.print.width _ hlexed
  exact hreads.parseCondition ⟨t, ts, htokens, by rwa [hkind]⟩

/-- A condition that needs parentheses, with a call and an empty string in it. -/
def sample : WrittenCondition :=
  .junction .conjunction ⟨['A', 'n', 'D'], by decide⟩
    (.negation (.junction .disjunction ⟨['o', 'R'], by decide⟩
      (.call ⟨"Exists".toList, 'E', "xists".toList, rfl, rfl, rfl⟩
        [.quoted ⟨['a', ' ', 'b'], by simp [isMark]⟩, .call ⟨['F'], 'F', [], rfl, rfl, rfl⟩ []])
      (.quoted ⟨['c'], by simp [isMark]⟩)))
    (.compare .notEqual (.quoted ⟨[], List.forall_mem_nil _⟩) (.quoted ⟨['d'], by simp [isMark]⟩))

theorem parseCondition_print_sample :
    sample.print = "!(Exists('a b', F()) oR 'c') AnD '' != 'd'".toList ∧
      ∃ e, parseCondition "!(Exists('a b', F()) oR 'c') AnD '' != 'd'".toList = .ok e ∧
        e.bare = sample.expr := by
  have hprint : sample.print = "!(Exists('a b', F()) oR 'c') AnD '' != 'd'".toList := by
    decide +kernel
  have hparse := parseCondition_print sample
  rw [hprint] at hparse
  exact ⟨hprint, hparse⟩

end WrittenCondition

end ProjectFile.Expression
