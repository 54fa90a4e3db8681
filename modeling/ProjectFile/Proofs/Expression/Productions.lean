import ProjectFile.Proofs.Expression.Lexemes

/-!
The productions of conditions.

For each strength of binding it is said what it means for tokens to be read as a tree that has some
property: an operand whatever comes behind it, a term up to what is no comparison, and the left side
of a junction up to the place where the reader would go on with another operand. The productions of
the grammar lead from one to the other (`ReadsOperand.term`, `ReadsTerm.compare`,
`ReadsConjunction.junction` and so on); which property of the trees they carry along is left open.

The readers take a count of the calls that they may make; four for each token are enough.
-/

namespace ProjectFile.Expression

/-! ## What comes next -/

theorem skipSpace_cons {t : Token} (h : t.kind ≠ .space) (ts : List Token) :
    skipSpace (t :: ts) = t :: ts :=
  List.dropWhile_cons_of_neg (by simpa using h)

theorem skipSpace_space {t : Token} (h : t.kind = .space) (ts : List Token) :
    skipSpace (t :: ts) = skipSpace ts :=
  List.dropWhile_cons_of_pos (by simpa using h)

theorem kind_of_skipSpace {ts us : List Token} {u : Token} (h : skipSpace ts = u :: us) :
    u.kind ≠ .space := by
  have hhead := List.head?_dropWhile_not (fun t : Token => t.kind == .space) ts
  rw [show ts.dropWhile _ = u :: us from h, List.head?_cons] at hhead
  simpa using hhead

theorem skipSpace_skipSpace (ts : List Token) : skipSpace (skipSpace ts) = skipSpace ts := by
  cases h : skipSpace ts with
  | nil => rfl
  | cons u us => exact skipSpace_cons (kind_of_skipSpace h) us

/-- Whether the token behind any space in front, if there is one, is none that `p` holds of. -/
def NextIsNot (p : Token → Bool) (ts : List Token) : Prop := ∀ t ∈ (skipSpace ts).head?, p t = false

def Token.isComparison (t : Token) : Bool := t.kind.isComparison

/-! ## Steps of the readers -/

section

variable {stop n : Nat} {tokens rest left : List Token} {t : Token} {e : Expr}

theorem readNot_operand (hskip : skipSpace tokens = t :: rest) (hbang : t.kind ≠ .bang)
    (he : readOperand stop n t rest = .ok (e, left)) (hnext : NextIsNot Token.isComparison left) :
    readNot stop (n + 1) tokens = .ok (e, skipSpace left) := by
  rw [readNot, hskip]
  dsimp only
  rw [if_neg hbang, he]
  simp only [bind, Except.bind, pure, Except.pure]
  cases hleft : skipSpace left with
  | nil => rfl
  | cons u us =>
    have hu : u.kind.isComparison = false := hnext u (by rw [hleft]; rfl)
    dsimp only
    split
    · next hkind _ => rw [hkind] at hu; cases hu
    · next hkind _ => rw [hkind] at hu; cases hu
    · rfl

theorem readNot_compare (hskip : skipSpace tokens = t :: rest) (hbang : t.kind ≠ .bang)
    (he : readOperand stop n t rest = .ok (e, left)) {u v : Token} {us vs left' : List Token}
    {op : Comparison} {e' : Expr} (hleft : skipSpace left = u :: us) (hkind : u.kind = .comparison op)
    (hus : skipSpace us = v :: vs) (he' : readOperand stop n v vs = .ok (e', left')) :
    readNot stop (n + 1) tokens = .ok (.compare (e.span.join e'.span) op e e', left') := by
  rw [readNot, hskip]
  dsimp only
  rw [if_neg hbang, he]
  simp only [bind, Except.bind, pure, Except.pure, hleft, hkind, hus, he']

theorem readNot_negation (hskip : skipSpace tokens = t :: rest) (hbang : t.kind = .bang)
    (he : readNot stop n rest = .ok (e, left)) :
    readNot stop (n + 1) tokens = .ok (.negation ⟨t.start, e.span.stop⟩ e, left) := by
  rw [readNot, hskip]
  dsimp only
  rw [if_pos hbang, he]
  rfl

theorem readAnd_first (he : readNot stop n tokens = .ok (e, left)) :
    readAnd stop (n + 1) tokens = readMoreAnd stop n e left := by
  rw [readAnd, he]
  rfl

theorem readMoreAnd_stop (hnext : NextIsNot (fun t => t.isWord andWord) left) :
    readMoreAnd stop (n + 1) e left = .ok (e, skipSpace left) := by
  rw [readMoreAnd]
  cases hleft : skipSpace left with
  | nil => rfl
  | cons u us =>
    have hu : u.isWord andWord = false := hnext u (by rw [hleft]; rfl)
    dsimp only
    rw [hu]
    rfl

theorem readMoreAnd_next {e' : Expr} {left' : List Token} (hleft : skipSpace left = t :: rest)
    (hword : t.isWord andWord = true) (he' : readNot stop n rest = .ok (e', left')) :
    readMoreAnd stop (n + 1) e left =
      readMoreAnd stop n (.junction (e.span.join e'.span) .conjunction e e') left' := by
  rw [readMoreAnd, hleft]
  dsimp only
  rw [if_pos hword, he']
  rfl

theorem readOr_first (he : readAnd stop n tokens = .ok (e, left)) :
    readOr stop (n + 1) tokens = readMoreOr stop n e left := by
  rw [readOr, he]
  rfl

theorem readMoreOr_stop (hnext : NextIsNot (fun t => t.isWord orWord) left) :
    readMoreOr stop (n + 1) e left = .ok (e, skipSpace left) := by
  rw [readMoreOr]
  cases hleft : skipSpace left with
  | nil => rfl
  | cons u us =>
    have hu : u.isWord orWord = false := hnext u (by rw [hleft]; rfl)
    dsimp only
    rw [hu]
    rfl

theorem readMoreOr_next {e' : Expr} {left' : List Token} (hleft : skipSpace left = t :: rest)
    (hword : t.isWord orWord = true) (he' : readAnd stop n rest = .ok (e', left')) :
    readMoreOr stop (n + 1) e left =
      readMoreOr stop n (.junction (e.span.join e'.span) .disjunction e e') left' := by
  rw [readMoreOr, hleft]
  dsimp only
  rw [if_pos hword, he']
  rfl

end

/-! ## Reading by strength -/

/-- Whether tokens are read as an operand that `P` holds of: it ends where they end, whatever comes
behind. -/
def ReadsOperand (stop : Nat) (ts : List Token) (P : Expr → Prop) : Prop :=
  ∃ t ts', ts = t :: ts' ∧ t.kind ≠ .space ∧ t.kind ≠ .bang ∧
    ∀ {n : Nat} (rest : List Token), 4 * ts.length ≤ n →
      ∃ e, readOperand stop n t (ts' ++ rest) = .ok (e, rest) ∧ P e

/-- Whether tokens are read as a term: it ends where they end if no comparison comes behind. -/
def ReadsTerm (stop : Nat) (ts : List Token) (P : Expr → Prop) : Prop :=
  ∀ ⦃n : Nat⦄ ⦃tokens rest : List Token⦄, skipSpace tokens = skipSpace (ts ++ rest) →
    NextIsNot Token.isComparison rest → 4 * ts.length + 1 ≤ n →
    ∃ e left, readNot stop n tokens = .ok (e, left) ∧ skipSpace left = skipSpace rest ∧ P e

/-- Whether tokens are read as a conjunction, or its left side: there the reader comes to look for
another `and`. -/
def ReadsConjunction (stop : Nat) (ts : List Token) (P : Expr → Prop) : Prop :=
  ∀ ⦃n : Nat⦄ ⦃tokens rest : List Token⦄, skipSpace tokens = skipSpace (ts ++ rest) →
    NextIsNot Token.isComparison rest → 4 * ts.length + 2 ≤ n →
    -- Of the `n` calls so many are used up that enough are left for the operands behind an `and`.
    ∃ e m left, n ≤ m + ts.length + 1 ∧ readAnd stop n tokens = readMoreAnd stop m e left ∧
      skipSpace left = skipSpace rest ∧ P e

/-- Whether tokens are read as a disjunction, or its left side: there the reader comes to look for
another `or`. -/
def ReadsDisjunction (stop : Nat) (ts : List Token) (P : Expr → Prop) : Prop :=
  ∀ ⦃n : Nat⦄ ⦃tokens rest : List Token⦄, skipSpace tokens = skipSpace (ts ++ rest) →
    NextIsNot Token.isComparison rest → NextIsNot (fun t => t.isWord andWord) rest →
    4 * ts.length + 3 ≤ n →
    ∃ e m left, n ≤ m + ts.length + 1 ∧ readOr stop n tokens = readMoreOr stop m e left ∧
      skipSpace left = skipSpace rest ∧ P e

section

variable {stop : Nat} {ts as bs : List Token} {w p q : Token} {P Q R : Expr → Prop}

/-! ### From one strength to the next -/

theorem ReadsOperand.term (h : ReadsOperand stop ts P) : ReadsTerm stop ts P := by
  intro n tokens rest htokens hrest hn
  obtain ⟨t, ts, rfl, hspace, hbang, hread⟩ := h
  obtain ⟨n, rfl⟩ := Nat.exists_eq_add_one_of_ne_zero (show n ≠ 0 by omega)
  rw [List.cons_append, skipSpace_cons hspace] at htokens
  obtain ⟨e, he, hP⟩ := hread (n := n) rest (by omega)
  exact ⟨e, skipSpace rest, readNot_operand htokens hbang he hrest, skipSpace_skipSpace rest, hP⟩

theorem ReadsTerm.conjunction (h : ReadsTerm stop ts P) : ReadsConjunction stop ts P := by
  intro n tokens rest htokens hrest hn
  obtain ⟨n, rfl⟩ := Nat.exists_eq_add_one_of_ne_zero (show n ≠ 0 by omega)
  obtain ⟨e, left, he, hleft, hP⟩ := h (n := n) htokens hrest (by omega)
  exact ⟨e, n, left, by omega, readAnd_first he, hleft, hP⟩

/-- Where no `and` comes next a conjunction ends. -/
theorem ReadsConjunction.read (h : ReadsConjunction stop ts P) {n : Nat} {tokens rest : List Token}
    (htokens : skipSpace tokens = skipSpace (ts ++ rest)) (hrest : NextIsNot Token.isComparison rest)
    (hnext : NextIsNot (fun t => t.isWord andWord) rest) (hn : 4 * ts.length + 2 ≤ n) :
    ∃ e, readAnd stop n tokens = .ok (e, skipSpace rest) ∧ P e := by
  obtain ⟨e, m, left, hm, he, hleft, hP⟩ := h htokens hrest hn
  obtain ⟨m, rfl⟩ := Nat.exists_eq_add_one_of_ne_zero (show m ≠ 0 by omega)
  have hnext' : NextIsNot (fun t => t.isWord andWord) left := by rwa [NextIsNot, hleft]
  exact ⟨e, by rw [he, readMoreAnd_stop hnext', hleft], hP⟩

theorem ReadsConjunction.disjunction (h : ReadsConjunction stop ts P) :
    ReadsDisjunction stop ts P := by
  intro n tokens rest htokens hrest hnext hn
  obtain ⟨n, rfl⟩ := Nat.exists_eq_add_one_of_ne_zero (show n ≠ 0 by omega)
  obtain ⟨e, he, hP⟩ := h.read (n := n) htokens hrest hnext (by omega)
  exact ⟨e, n, skipSpace rest, by omega, readOr_first he, skipSpace_skipSpace rest, hP⟩

/-- Where no `or` comes next either a disjunction ends. -/
theorem ReadsDisjunction.read (h : ReadsDisjunction stop ts P) {n : Nat} {tokens rest : List Token}
    (htokens : skipSpace tokens = skipSpace (ts ++ rest))
    (hrest : ∀ t ∈ (skipSpace rest).head?, t.isComparison = false ∧ t.kind ≠ .identifier)
    (hn : 4 * ts.length + 3 ≤ n) :
    ∃ e, readOr stop n tokens = .ok (e, skipSpace rest) ∧ P e := by
  have hword (word : Text) : NextIsNot (fun t => t.isWord word) rest := fun t ht => by
    simp [Token.isWord, (hrest t ht).2]
  obtain ⟨e, m, left, hm, he, hleft, hP⟩ :=
    h htokens (fun t ht => (hrest t ht).1) (hword andWord) hn
  obtain ⟨m, rfl⟩ := Nat.exists_eq_add_one_of_ne_zero (show m ≠ 0 by omega)
  have hnext : NextIsNot (fun t => t.isWord orWord) left := by
    rw [NextIsNot, hleft]
    exact hword orWord
  exact ⟨e, by rw [he, readMoreOr_stop hnext, hleft], hP⟩

/-- What ends with a parenthesis or a comma is read up to it. -/
theorem ReadsDisjunction.read_closed (h : ReadsDisjunction stop ts P) {n : Nat}
    {tokens rest : List Token} (htokens : skipSpace tokens = skipSpace (ts ++ p :: rest))
    (hp : p.kind = .rightParen ∨ p.kind = .comma) (hn : 4 * ts.length + 3 ≤ n) :
    ∃ e, readOr stop n tokens = .ok (e, p :: rest) ∧ P e := by
  have hspace : p.kind ≠ .space := by rcases hp with hp | hp <;> (rw [hp]; nofun)
  have hskip : skipSpace (p :: rest) = p :: rest := skipSpace_cons hspace rest
  have hnext : ∀ t ∈ (skipSpace (p :: rest)).head?, t.isComparison = false ∧ t.kind ≠ .identifier := by
    rw [hskip]
    intro t ht
    cases ht
    rcases hp with hp | hp <;> exact ⟨by rw [Token.isComparison, hp]; rfl, by rw [hp]; nofun⟩
  obtain ⟨e, he, hP⟩ := h.read htokens hnext hn
  exact ⟨e, by rw [he, hskip], hP⟩

/-- **All tokens of a text that are read as a disjunction make up a condition.** -/
theorem ReadsDisjunction.parseCondition {t : Text} (h : ReadsDisjunction t.width (tokens t) P)
    (hfirst : ∃ u us, tokens t = u :: us ∧ u.kind ≠ .space) :
    ∃ e, parseCondition t = .ok e ∧ P e := by
  obtain ⟨u, us, hcons, hspace⟩ := hfirst
  have hskip : (skipSpace (tokens t)).isEmpty = false := by
    rw [hcons, skipSpace_cons hspace]
    rfl
  have hall : skipSpace (tokens t) = skipSpace (tokens t ++ []) := by rw [List.append_nil]
  obtain ⟨e, he, hP⟩ := h.read (n := stepLimit (tokens t)) hall nofun (by rw [stepLimit]; omega)
  refine ⟨e, ?_, hP⟩
  unfold Expression.parseCondition
  dsimp only
  rw [hskip, readCondition, he]
  rfl

/-! ### Terms -/

/-- Whether tokens are two parts and a token between them, with a space on both sides of it. -/
def Spaced (as : List Token) (w : Token) (bs ts : List Token) : Prop :=
  ∃ s s', s.kind = .space ∧ s'.kind = .space ∧ ts = as ++ s :: w :: s' :: bs

theorem Spaced.length (h : Spaced as w bs ts) : ts.length = as.length + bs.length + 3 := by
  obtain ⟨s, s', -, -, rfl⟩ := h
  simp
  omega

theorem Spaced.left_isInfix (h : Spaced as w bs ts) : as <:+: ts := by
  obtain ⟨s, s', -, -, rfl⟩ := h
  exact (List.prefix_append as _).isInfix

theorem Spaced.right_isInfix (h : Spaced as w bs ts) : bs <:+: ts := by
  obtain ⟨s, s', -, -, rfl⟩ := h
  exact ⟨as ++ [s, w, s'], [], by simp⟩

/-- A comparison of two operands is a term. -/
theorem ReadsTerm.compare (hl : ReadsOperand stop as P) (hr : ReadsOperand stop bs Q)
    (hts : Spaced as w bs ts) {op : Comparison} (hop : w.kind = .comparison op)
    (hR : ∀ {s e e'}, P e → Q e' → R (.compare s op e e')) : ReadsTerm stop ts R := by
  intro n tokens rest htokens hrest hn
  rw [hts.length] at hn
  obtain ⟨s, s', hs, hs', rfl⟩ := hts
  obtain ⟨n, rfl⟩ := Nat.exists_eq_add_one_of_ne_zero (show n ≠ 0 by omega)
  obtain ⟨t, as, rfl, hspace, hbang, hleft⟩ := hl
  obtain ⟨v, bs, rfl, hspace', -, hright⟩ := hr
  rw [List.append_assoc, List.cons_append, skipSpace_cons hspace] at htokens
  obtain ⟨e, he, hP⟩ := hleft (n := n) (s :: w :: s' :: v :: (bs ++ rest)) (by omega)
  obtain ⟨e', he', hQ⟩ := hright (n := n) rest (by omega)
  have hbehind : skipSpace (s :: w :: s' :: v :: (bs ++ rest)) = w :: s' :: v :: (bs ++ rest) := by
    rw [skipSpace_space hs, skipSpace_cons (by rw [hop]; nofun)]
  have hoperand : skipSpace (s' :: v :: (bs ++ rest)) = v :: (bs ++ rest) := by
    rw [skipSpace_space hs', skipSpace_cons hspace']
  exact ⟨_, rest, readNot_compare htokens hbang he hbehind hop hoperand he', rfl, hR hP hQ⟩

/-- A term with `!` in front is a term. -/
theorem ReadsTerm.negation (h : ReadsTerm stop ts P) (hbang : w.kind = .bang)
    (hQ : ∀ {s e}, P e → Q (.negation s e)) : ReadsTerm stop (w :: ts) Q := by
  intro n tokens rest htokens hrest hn
  obtain ⟨n, rfl⟩ := Nat.exists_eq_add_one_of_ne_zero (show n ≠ 0 by omega)
  rw [List.cons_append, skipSpace_cons (by rw [hbang]; nofun)] at htokens
  rw [List.length_cons] at hn
  obtain ⟨e, left, he, hleft, hP⟩ := h (n := n) rfl hrest (by omega)
  exact ⟨_, left, readNot_negation htokens hbang he, hleft, hQ hP⟩

/-! ### Junctions -/

/-- Whether a token is the word of a junction. -/
def Joins (op : Junction) (w : Token) : Prop :=
  w.kind = .identifier ∧ Text.sameName w.text op.word = true

/-- The word of a junction comes next behind a space, and is neither a comparison nor the other
word. -/
theorem Joins.next {op : Junction} {s : Token} (hw : Joins op w) (hs : s.kind = .space)
    (rest : List Token) :
    skipSpace (s :: w :: rest) = w :: rest ∧ w.isWord op.word = true ∧
      NextIsNot Token.isComparison (s :: w :: rest) ∧
        ∀ op' : Junction, op' ≠ op → NextIsNot (fun t => t.isWord op'.word) (s :: w :: rest) := by
  obtain ⟨hkind, hsame⟩ := hw
  have hnext : skipSpace (s :: w :: rest) = w :: rest := by
    rw [skipSpace_space hs, skipSpace_cons (by rw [hkind]; nofun)]
  refine ⟨hnext, ?_, ?_, fun op' hne => ?_⟩
  · rw [Token.isWord, hkind, hsame]
    rfl
  · rw [NextIsNot, hnext]
    intro t ht
    cases ht
    rw [Token.isComparison, hkind]
    rfl
  · rw [NextIsNot, hnext]
    intro t ht
    cases ht
    have hfold : Text.fold w.text = Text.fold op.word := Text.sameName_iff.1 hsame
    rw [Token.isWord, Bool.and_eq_false_iff]
    refine .inr ?_
    rw [Text.sameName, hfold]
    cases op <;> cases op' <;> first | rfl | exact absurd rfl hne

/-- A conjunction goes on with a term. -/
theorem ReadsConjunction.junction (hl : ReadsConjunction stop as P) (hr : ReadsTerm stop bs Q)
    (hts : Spaced as w bs ts) (hw : Joins .conjunction w)
    (hR : ∀ {s e e'}, P e → Q e' → R (.junction s .conjunction e e')) :
    ReadsConjunction stop ts R := by
  intro n tokens rest htokens hrest hn
  rw [hts.length] at hn ⊢
  obtain ⟨s, s', hs, hs', rfl⟩ := hts
  obtain ⟨hmiddle, hword, hnext, -⟩ := hw.next hs (s' :: (bs ++ rest))
  rw [List.append_assoc] at htokens
  obtain ⟨e, m, left, hm, he, hleft, hP⟩ := hl (n := n) htokens hnext (by omega)
  -- The left side is read up to the place where the reader looks for an `and`, and finds this one.
  obtain ⟨m, rfl⟩ := Nat.exists_eq_add_one_of_ne_zero (show m ≠ 0 by omega)
  obtain ⟨e', left', he', hleft', hQ⟩ := hr (n := m) (skipSpace_space hs' (bs ++ rest)) hrest (by omega)
  refine ⟨.junction (e.span.join e'.span) .conjunction e e', m, left', by omega, ?_, hleft', hR hP hQ⟩
  rw [he, readMoreAnd_next (hleft.trans hmiddle) hword he']

/-- A disjunction goes on with a conjunction. -/
theorem ReadsDisjunction.junction (hl : ReadsDisjunction stop as P) (hr : ReadsConjunction stop bs Q)
    (hts : Spaced as w bs ts) (hw : Joins .disjunction w)
    (hR : ∀ {s e e'}, P e → Q e' → R (.junction s .disjunction e e')) :
    ReadsDisjunction stop ts R := by
  intro n tokens rest htokens hrest hand hn
  rw [hts.length] at hn ⊢
  obtain ⟨s, s', hs, hs', rfl⟩ := hts
  obtain ⟨hmiddle, hword, hnext, hother⟩ := hw.next hs (s' :: (bs ++ rest))
  rw [List.append_assoc] at htokens
  obtain ⟨e, m, left, hm, he, hleft, hP⟩ := hl (n := n) htokens hnext (hother .conjunction nofun) (by omega)
  obtain ⟨m, rfl⟩ := Nat.exists_eq_add_one_of_ne_zero (show m ≠ 0 by omega)
  obtain ⟨e', he', hQ⟩ := hr.read (n := m) (skipSpace_space hs' (bs ++ rest)) hrest hand (by omega)
  refine ⟨.junction (e.span.join e'.span) .disjunction e e', m, skipSpace rest, by omega, ?_,
    skipSpace_skipSpace rest, hR hP hQ⟩
  rw [he, readMoreOr_next (hleft.trans hmiddle) hword he']

/-! ### Operands -/

/-- A disjunction in parentheses is an operand. -/
theorem ReadsDisjunction.group (h : ReadsDisjunction stop ts P) (hopen : p.kind = .leftParen)
    (hclose : q.kind = .rightParen) (hQ : ∀ {s e}, P e → Q (.group s e)) :
    ReadsOperand stop (p :: (ts ++ [q])) Q := by
  refine ⟨p, ts ++ [q], rfl, by rw [hopen]; nofun, by rw [hopen]; nofun, fun {n} rest hn => ?_⟩
  rw [List.length_cons, List.length_append, List.length_singleton] at hn
  obtain ⟨n, rfl⟩ := Nat.exists_eq_add_one_of_ne_zero (show n ≠ 0 by omega)
  rw [List.append_assoc]
  obtain ⟨e, he, hP⟩ := h.read_closed (n := n) (rfl : skipSpace (ts ++ q :: rest) = _) (.inl hclose)
    (by omega)
  refine ⟨.group ⟨p.start, q.span.stop⟩ e, ?_, hQ hP⟩
  have hquote : p.kind ≠ .quote := by rw [hopen]; nofun
  rw [readOperand, if_neg hquote, if_pos hopen]
  show (readOr stop n (ts ++ q :: rest) >>= _) = _
  rw [he]
  simp only [bind, Except.bind, closeParenthesis, if_pos hclose]
  rfl

/-- Plain tokens up to a quote are one literal, if there are any. -/
theorem readRun_inert (stop : Nat) {n : Nat} {q : Token} (hq : q.kind = .quote) (rest : List Token)
    {ts : List Token} (hts : ∀ t ∈ ts, t.kind.isInert = true) (hn : ts.length < n) :
    ∃ parts, readRun stop (fun kind => kind == .quote) n (ts ++ q :: rest) = .ok (parts, q :: rest) ∧
      (ts = [] ∧ parts = [] ∨ ts ≠ [] ∧ ∃ s, parts = [.literal s (ts.flatMap Token.text)]) := by
  induction ts generalizing n with
  | nil =>
    obtain ⟨n, rfl⟩ := Nat.exists_eq_add_one_of_ne_zero (Nat.ne_of_gt hn)
    refine ⟨[], ?_, .inl ⟨rfl, rfl⟩⟩
    have hends : (q.kind == .quote) = true := beq_iff_eq.2 hq
    rw [List.nil_append, readRun, if_pos hends]
  | cons t ts ih =>
    rw [List.forall_mem_cons] at hts
    obtain ⟨n, rfl⟩ := Nat.exists_eq_add_one_of_ne_zero (show n ≠ 0 by omega)
    obtain ⟨parts, hparts, hliteral⟩ := ih hts.2 (Nat.lt_of_succ_lt_succ hn)
    have hinert := hts.1
    have hends : ¬ (t.kind == .quote) = true := by
      intro h
      rw [beq_iff_eq.1 h] at hinert
      cases hinert
    refine ⟨prependText t parts, ?_, .inr ⟨List.cons_ne_nil t ts, ?_⟩⟩
    · rw [List.cons_append, readRun, if_neg hends]
      split
      · next hkind => rw [hkind] at hinert; cases hinert
      · next hkind => rw [hkind] at hinert; cases hinert
      · next hkind => rw [hkind] at hinert; cases hinert
      · rw [hparts]
        rfl
    · rcases hliteral with ⟨rfl, rfl⟩ | ⟨-, s, rfl⟩
      · exact ⟨t.span, by simp [prependText]⟩
      · exact ⟨⟨t.start, s.stop⟩, by simp [prependText]⟩

/-- A text run between quotes is an operand. -/
theorem ReadsOperand.quoted {S : List Expr → Prop} (hopen : p.kind = .quote)
    (hrun : ∀ {n : Nat} (rest : List Token), ts.length < n →
      ∃ parts, readRun stop (fun kind => kind == .quote) n (ts ++ q :: rest) = .ok (parts, q :: rest) ∧
        S parts)
    (hQ : ∀ {parts}, S parts → Q (.quoted ⟨p.start, q.span.stop⟩ parts)) :
    ReadsOperand stop (p :: (ts ++ [q])) Q := by
  refine ⟨p, ts ++ [q], rfl, by rw [hopen]; nofun, by rw [hopen]; nofun, fun {n} rest hn => ?_⟩
  rw [List.length_cons, List.length_append, List.length_singleton] at hn
  obtain ⟨n, rfl⟩ := Nat.exists_eq_add_one_of_ne_zero (show n ≠ 0 by omega)
  obtain ⟨n, rfl⟩ := Nat.exists_eq_add_one_of_ne_zero (show n ≠ 0 by omega)
  obtain ⟨parts, hparts, hS⟩ := hrun (n := n) rest (by omega)
  refine ⟨.quoted ⟨p.start, q.span.stop⟩ parts, ?_, hQ hS⟩
  rw [List.append_assoc, List.cons_append, List.nil_append, readOperand, if_pos hopen, readQuoted,
    hparts]
  rfl

end

/-! ## Any strength -/

open WrittenCondition (Strength)

/-- Whether tokens are read by the reader of a strength as a tree that `P` holds of. -/
def ReadsBy (stop : Nat) : Strength → List Token → (Expr → Prop) → Prop
  | .operand => ReadsOperand stop
  | .term => ReadsTerm stop
  | .conjunction => ReadsConjunction stop
  | .disjunction => ReadsDisjunction stop

/-- Whether tokens are others, in parentheses if they are needed. -/
def Enclosed (loose : Bool) (as ts : List Token) : Prop :=
  if loose then ∃ p q, p.kind = .leftParen ∧ q.kind = .rightParen ∧ ts = p :: (as ++ [q]) else ts = as

theorem Enclosed.isInfix {loose : Bool} {as ts : List Token} (h : Enclosed loose as ts) : as <:+: ts := by
  unfold Enclosed at h
  split at h
  · obtain ⟨p, q, -, -, rfl⟩ := h
    exact ⟨[p], [q], rfl⟩
  · exact h ▸ List.infix_rfl

section

variable {stop : Nat} {ts as : List Token} {P : Expr → Prop} {strength needed : Strength}

/-- What is bound tightly is read where less is asked for too. -/
theorem ReadsBy.weaken (h : ReadsBy stop strength ts P) (hle : needed.rank ≤ strength.rank) :
    ReadsBy stop needed ts P := by
  match needed, strength with
  | .operand, .operand => exact h
  | .term, .operand => exact ReadsOperand.term h
  | .term, .term => exact h
  | .conjunction, .operand => exact (ReadsOperand.term h).conjunction
  | .conjunction, .term => exact ReadsTerm.conjunction h
  | .conjunction, .conjunction => exact h
  | .disjunction, .operand => exact (ReadsOperand.term h).conjunction.disjunction
  | .disjunction, .term => exact (ReadsTerm.conjunction h).disjunction
  | .disjunction, .conjunction => exact ReadsConjunction.disjunction h
  | .disjunction, .disjunction => exact h

theorem ReadsBy.disjunction (h : ReadsBy stop strength ts P) : ReadsDisjunction stop ts P :=
  (h.weaken (Nat.zero_le _) : ReadsBy stop .disjunction ts P)

/-- What is in parentheses where it needs them is read as is asked for. -/
theorem ReadsBy.enclose (h : ReadsBy stop strength as P)
    (hts : Enclosed (decide (strength.rank < needed.rank)) as ts)
    (hgroup : ∀ {s e}, P e → P (.group s e)) : ReadsBy stop needed ts P := by
  unfold Enclosed at hts
  split at hts
  · obtain ⟨p, q, hopen, hclose, rfl⟩ := hts
    have hoperand : ReadsBy stop .operand _ P := h.disjunction.group hopen hclose hgroup
    exact hoperand.weaken (by cases needed <;> decide)
  · next hloose =>
    rw [decide_eq_true_eq, Nat.not_lt] at hloose
    exact hts ▸ h.weaken hloose

end

/-! ## Lexemes of productions -/

/-- Lexemes between which a word stands with a space on both sides. -/
def spaced (ls : List Lexeme) (word : Lexeme) (ms : List Lexeme) : List Lexeme :=
  ls ++ (.space, [' ']) :: word :: (.space, [' ']) :: ms

section

variable {ts : List Token} {l m : Lexeme} {ls ms : List Lexeme}

/-- Tokens with such lexemes fall into the tokens of each part. -/
theorem exists_spaced (h : ts.map Token.lexeme = spaced ls l ms) :
    ∃ as w bs, Spaced as w bs ts ∧ as.map Token.lexeme = ls ∧ w.lexeme = l ∧
      bs.map Token.lexeme = ms := by
  obtain ⟨as, us, rfl, has, hus⟩ := List.map_eq_append_iff.1 h
  obtain ⟨s, us, rfl, hs, hus⟩ := List.map_eq_cons_iff.1 hus
  obtain ⟨w, us, rfl, hw, hus⟩ := List.map_eq_cons_iff.1 hus
  obtain ⟨s', bs, rfl, hs', hbs⟩ := List.map_eq_cons_iff.1 hus
  exact ⟨as, w, bs, ⟨s, s', congrArg Prod.fst hs, congrArg Prod.fst hs', rfl⟩, has, hw, hbs⟩

/-- So do those of lexemes between two others. -/
theorem exists_between (h : ts.map Token.lexeme = l :: (ls ++ [m])) :
    ∃ p as q, ts = p :: (as ++ [q]) ∧ p.lexeme = l ∧ as.map Token.lexeme = ls ∧ q.lexeme = m := by
  obtain ⟨p, us, rfl, hp, hus⟩ := List.map_eq_cons_iff.1 h
  obtain ⟨as, qs, rfl, has, hqs⟩ := List.map_eq_append_iff.1 hus
  obtain ⟨q, rfl, hq⟩ := List.map_eq_singleton_iff.1 hqs
  exact ⟨p, as, q, rfl, hp, has, hq⟩

/-- And those of lexemes that may be in parentheses. -/
theorem exists_enclosed {loose : Bool} (h : ts.map Token.lexeme = WrittenCondition.encloseLexed loose ls) :
    ∃ as, Enclosed loose as ts ∧ as.map Token.lexeme = ls := by
  cases loose with
  | false => exact ⟨ts, rfl, h⟩
  | true =>
    obtain ⟨p, as, q, rfl, hp, has, hq⟩ := exists_between h
    exact ⟨as, ⟨p, q, congrArg Prod.fst hp, congrArg Prod.fst hq, rfl⟩, has⟩

/-- The word of a junction joins in any spelling. -/
theorem Spelling.joins {op : Junction} (word : Spelling op) {w : Token}
    (h : w.lexeme = (.identifier, word.text)) : Joins op w := by
  have htext : w.text = word.text := congrArg Prod.snd h
  exact ⟨congrArg Prod.fst h, by rw [htext, word.same]⟩

end

end ProjectFile.Expression
