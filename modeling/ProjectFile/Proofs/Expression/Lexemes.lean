import ProjectFile.Proofs.Expression.TokenEnds
import ProjectFile.Proofs.Expression.Tokens
import ProjectFile.Proofs.Expression.WrittenCondition

/-!
The tokens of written conditions.

What a token is does not depend on where it stands, so a text has *lexemes*: the kinds and texts of
its tokens. A word of a text is a lexeme if what follows does not go on with it (`lexemes_cons`), and
the lexemes of what is between quotes are those that it has alone (`lexemes_plain`). From this the
lexemes of a condition follow from left to right, in front of any text (`lexemes_print`).
-/

namespace ProjectFile.Expression

/-! ## Lexemes -/

/-- What a token is, without where it stands. -/
abbrev Lexeme := TokenKind × Text

def Token.lexeme (t : Token) : Lexeme := (t.kind, t.text)

/-- The lexemes of a text. -/
def lexemes (t : Text) : List Lexeme := (tokens t).map Token.lexeme

/-- Text in front of lexemes becomes one with them as in front of tokens. -/
theorem map_lexeme_prepend {u v : Token} {us vs : List Token} (huv : u.lexeme = v.lexeme)
    (h : us.map Token.lexeme = vs.map Token.lexeme) :
    (u.prepend us).map Token.lexeme = (v.prepend vs).map Token.lexeme := by
  obtain ⟨hkind, htext⟩ := Prod.mk.injEq _ _ _ _ ▸ huv
  match us, vs with
  | [], [] => simp [Token.prepend, huv]
  | [], _ :: _ => cases h
  | _ :: _, [] => cases h
  | u' :: us, v' :: vs =>
    rw [List.map_cons, List.map_cons, List.cons.injEq] at h
    obtain ⟨hkind', htext'⟩ := Prod.mk.injEq _ _ _ _ ▸ h.1
    rw [Token.prepend, Token.prepend, hkind, hkind']
    split
    · simp [Token.lexeme, htext, htext', h.2]
    · simp [Token.lexeme, hkind, htext, hkind', htext', h.2]

/-- What the tokens of a text are does not depend on where it stands. -/
theorem map_lexeme_tokensFrom (offset offset' skip : Nat) (t : Text) :
    (tokensFrom offset skip t).map Token.lexeme = (tokensFrom offset' skip t).map Token.lexeme := by
  induction t generalizing offset offset' skip with
  | nil => rw [tokensFrom, tokensFrom]
  | cons c t ih =>
    cases skip with
    | succ skip =>
      rw [tokensFrom, tokensFrom]
      exact ih _ _ _
    | zero =>
      rw [tokensFrom, tokensFrom]
      exact map_lexeme_prepend rfl (ih _ _ _)

theorem lexemes_eq (offset : Nat) (t : Text) :
    (tokensFrom offset 0 t).map Token.lexeme = lexemes t := map_lexeme_tokensFrom offset 0 0 t

/-- The texts of the tokens of a text are the text. -/
theorem flatMap_text_tokens (t : Text) : (tokens t).flatMap Token.text = t := by
  have hall := (stand_tokens t).covers.slice_eq
  rwa [(Span.covers_whole t).slice_eq, eq_comm] at hall

theorem flatMap_snd_lexemes (t : Text) : (lexemes t).flatMap Prod.snd = t := by
  rw [lexemes, List.flatMap_map]
  exact flatMap_text_tokens t

theorem flatMap_text_tokensFrom (offset : Nat) (t : Text) :
    (tokensFrom offset 0 t).flatMap Token.text = t := by
  have hall := flatMap_snd_lexemes t
  rwa [← lexemes_eq offset, List.flatMap_map] at hall

theorem tokensFrom_skip (offset : Nat) (w rest : Text) :
    tokensFrom offset w.length (w ++ rest) = tokensFrom (offset + w.width) 0 rest := by
  induction w generalizing offset with
  | nil => rfl
  | cons c w ih =>
    rw [List.length_cons, List.cons_append, tokensFrom, ih, Text.width_cons, Nat.add_assoc]

theorem prepend_eq_cons {u : Token} {us : List Token}
    (h : u.kind ≠ .text ∨ ∀ v ∈ us.head?, v.kind ≠ .text) : u.prepend us = u :: us := by
  cases us with
  | nil => rfl
  | cons v vs =>
    rw [Token.prepend, if_neg]
    rintro ⟨hu, hv⟩
    exact h.elim (fun h => h hu) (fun h => h v rfl hv)

section

variable {c : Char} {w rest : Text} {kind : TokenKind}
  (h : readToken c (w ++ rest) = (kind, w.length + 1))

include h

theorem tokensFrom_word (offset : Nat) :
    tokensFrom offset 0 (c :: (w ++ rest)) =
      Token.prepend ⟨kind, offset, c :: w⟩ (tokensFrom (offset + c.utf8Size + w.width) 0 rest) := by
  have htake : (c :: (w ++ rest)).take (w.length + 1) = c :: w := by simp
  rw [tokensFrom, h]
  dsimp only
  rw [htake, Nat.add_sub_cancel, tokensFrom_skip]

variable (hkind : kind ≠ .text)

include hkind

theorem tokensFrom_cons (offset : Nat) :
    tokensFrom offset 0 (c :: (w ++ rest)) =
      ⟨kind, offset, c :: w⟩ :: tokensFrom (offset + c.utf8Size + w.width) 0 rest := by
  rw [tokensFrom_word h, prepend_eq_cons (.inl hkind)]

/-- **A word that is a token is a lexeme**, unless it is text, which may go on. -/
theorem lexemes_cons : lexemes (c :: (w ++ rest)) = (kind, c :: w) :: lexemes rest := by
  rw [lexemes, tokens, tokensFrom_cons h hkind, List.map_cons, lexemes_eq]
  rfl

end

/-! ## Plain text between quotes -/

/-- Whether a token stands for itself between quotes: it is no quote and begins no reference. -/
def TokenKind.isInert : TokenKind → Bool
  | .quote => false
  | .propertyOpen => false
  | .itemOpen => false
  | .metadataOpen => false
  | _ => true

/-- A token that begins with no mark ends before a quote, and stands for itself. -/
theorem readToken_plain {c : Char} (hc : isMark c = false) (w : Text) :
    (readToken c w).1.isInert = true ∧ (readToken c w).2 ≤ w.length + 1 ∧
      ∀ rest : Text, readToken c (w ++ '\'' :: rest) = readToken c w := by
  have hquote : '\'' ∈ boundarySigns := by decide
  have hbefore (rest : Text) := readToken_before hquote w rest c nofun
  refine ⟨?_, (hbefore []).2, fun rest => (hbefore rest).1⟩
  have hpair (asked : Bool) (k l : TokenKind) (hk : k.isInert = true) (hl : l.isInert = true) :
      (if asked then (k, 2) else (l, 1) : TokenKind × Nat).1.isInert = true := by
    cases asked
    · exact hl
    · exact hk
  unfold readToken
  split
  case h_1 => cases hc
  case h_2 => cases hc
  case h_3 => cases hc
  case h_6 => cases hc
  case h_7 => exact hpair _ _ _ rfl rfl
  case h_8 => exact hpair _ _ _ rfl rfl
  case h_9 => exact hpair _ _ _ rfl rfl
  case h_10 => exact hpair _ _ _ rfl rfl
  case h_11 => exact hpair _ _ _ rfl rfl
  case h_15 => cases hc
  case h_16 =>
    dsimp only
    split
    · rfl
    split
    · rfl
    split <;> rfl
  all_goals rfl

theorem prepend_append {u : Token} {us vs : List Token} (h : ∀ v ∈ vs.head?, v.kind ≠ .text) :
    u.prepend (us ++ vs) = u.prepend us ++ vs := by
  cases us with
  | nil => exact prepend_eq_cons (.inr h)
  | cons u' us =>
    rw [List.cons_append, Token.prepend, Token.prepend]
    split <;> rfl

/-- The tokens of plain text in front of a quote are those that it has alone. -/
theorem tokensFrom_plain {w : Text} (hw : ∀ c ∈ w, isMark c = false) (offset skip : Nat)
    (hskip : skip ≤ w.length) (rest : Text) :
    tokensFrom offset skip (w ++ '\'' :: rest) =
      tokensFrom offset skip w ++ tokensFrom (offset + w.width) 0 ('\'' :: rest) := by
  induction w generalizing offset skip with
  | nil =>
    obtain rfl : skip = 0 := Nat.le_zero.1 hskip
    rfl
  | cons c w ih =>
    rw [List.forall_mem_cons] at hw
    rw [List.length_cons] at hskip
    rw [List.cons_append, Text.width_cons, ← Nat.add_assoc]
    cases skip with
    | succ skip =>
      rw [tokensFrom, tokensFrom, ih hw.2 _ _ (Nat.le_of_succ_le_succ hskip)]
    | zero =>
      obtain ⟨-, hle, hstable⟩ := readToken_plain hw.1 w
      have hword : (c :: (w ++ '\'' :: rest)).take (readToken c w).2 =
          (c :: w).take (readToken c w).2 := by
        rw [← List.cons_append, List.take_append_of_le_length hle]
      have hquote (o : Nat) : ∀ v ∈ (tokensFrom o 0 ('\'' :: rest)).head?, v.kind ≠ .text := by
        have hread : readToken '\'' ([] ++ rest) = (.quote, 1) := rfl
        have hcons := tokensFrom_cons hread (by decide) o
        rw [List.nil_append] at hcons
        rw [hcons]
        intro v hv
        cases hv
        exact (by decide : TokenKind.quote ≠ .text)
      rw [tokensFrom, tokensFrom, hstable, ih hw.2 _ _ (by omega), hword, prepend_append (hquote _)]

/-- So are its lexemes. -/
theorem lexemes_plain {w : Text} (hw : ∀ c ∈ w, isMark c = false) (rest : Text) :
    lexemes (w ++ '\'' :: rest) = lexemes w ++ (.quote, ['\'']) :: lexemes rest := by
  have hquote : lexemes ('\'' :: ([] ++ rest)) = (.quote, ['\'']) :: lexemes rest :=
    lexemes_cons rfl nofun
  rw [lexemes, tokens, tokensFrom_plain hw 0 0 (Nat.zero_le _), List.map_append, lexemes_eq, lexemes_eq]
  exact congrArg (lexemes w ++ ·) hquote

/-- A token in front of others is of a kind that it or one of them is of. -/
theorem kind_of_mem_prepend {u v : Token} {us : List Token} (h : v ∈ u.prepend us) :
    v.kind = u.kind ∨ ∃ w ∈ us, v.kind = w.kind := by
  cases us with
  | nil => exact .inl (congrArg Token.kind (List.mem_singleton.1 h))
  | cons u' us =>
    rw [Token.prepend] at h
    split at h
    · rcases List.mem_cons.1 h with rfl | h
      · exact .inl rfl
      · exact .inr ⟨v, List.mem_cons_of_mem _ h, rfl⟩
    · rcases List.mem_cons.1 h with rfl | h
      · exact .inl rfl
      · exact .inr ⟨v, h, rfl⟩

theorem isInert_tokensFrom {w : Text} (hw : ∀ c ∈ w, isMark c = false) (offset skip : Nat) :
    ∀ u ∈ tokensFrom offset skip w, u.kind.isInert = true := by
  induction w generalizing offset skip with
  | nil =>
    rw [tokensFrom]
    exact List.forall_mem_nil _
  | cons c w ih =>
    rw [List.forall_mem_cons] at hw
    intro u hu
    cases skip with
    | succ skip =>
      rw [tokensFrom] at hu
      exact ih hw.2 _ _ u hu
    | zero =>
      rw [tokensFrom] at hu
      rcases kind_of_mem_prepend hu with hkind | ⟨v, hv, hkind⟩
      · rw [hkind]
        exact (readToken_plain hw.1 w).1
      · rw [hkind]
        exact ih hw.2 _ _ v hv

/-! ## Words -/

/-- A sign that is a token whatever comes behind is a lexeme. -/
theorem lexemes_sign (kind : TokenKind) {c : Char} (h : ∀ rest, readToken c rest = (kind, 1))
    (hkind : kind ≠ .text) (rest : Text) : lexemes (c :: rest) = (kind, [c]) :: lexemes rest :=
  lexemes_cons (w := []) (h _) hkind

theorem lexemes_space {rest : Text} (hrest : ∀ d ∈ rest.head?, Text.isMarkupSpace d = false) :
    lexemes (' ' :: rest) = (.space, [' ']) :: lexemes rest := by
  have hnone : Text.lengthWhile Text.isMarkupSpace rest = 0 := by
    cases rest with
    | nil => rfl
    | cons d rest => rw [Text.lengthWhile, hrest d rfl]; rfl
  have hread : readToken ' ' ([] ++ rest) = (.space, 1) :=
    congrArg (fun n => (TokenKind.space, n + 1)) hnone
  exact lexemes_cons hread (by decide)

theorem isMarkupSpace_of_isLetter {c : Char} (hc : isLetter c = true) : Text.isMarkupSpace c = false := by
  rw [Bool.eq_false_iff]
  intro h
  simp only [Text.isMarkupSpace, Bool.or_eq_true, beq_iff_eq] at h
  rcases h with ((rfl | rfl) | rfl) | rfl <;> cases hc

/-- A letter begins an identifier. -/
theorem readToken_letter {c : Char} (hc : isLetter c = true) (w : Text) :
    readToken c w = (.identifier, identifierLength w + 1) := by
  unfold readToken
  split
  case h_16 =>
    rw [isMarkupSpace_of_isLetter hc, hc]
    rfl
  all_goals cases hc

/-- An identifier is a lexeme in front of what does not go on with it. -/
theorem lexemes_identifier {f : Text} (hf : IsIdentifier f) {d : Char} (hd : isWordChar d = false)
    (hdash : d ≠ '-') (rest : Text) :
    lexemes (f ++ d :: rest) = (.identifier, f) :: lexemes (d :: rest) := by
  obtain ⟨c, w, rfl, hc, hw⟩ := hf
  refine lexemes_cons ?_ nofun
  rw [readToken_letter hc, identifierLength_before hd hdash, hw]

theorem identifierLength_eq {w : Text} (h : ∀ c ∈ w, isWordChar c = true) :
    identifierLength w = w.length := by
  fun_induction identifierLength w with
  | case1 => rfl
  | case2 => rfl
  | case3 d hd => exact absurd (h d List.mem_cons_self) hd
  | case4 d e w hd ih =>
    rw [ih (List.forall_mem_cons.1 h).2]
    rfl
  | case5 d e w hd => exact absurd (h d List.mem_cons_self) hd
  | case6 d e w hd => exact absurd (h d List.mem_cons_self) hd

theorem isLetter_of_toLower {c : Char} (h : isLetter c.toLower = true) : isLetter c = true := by
  by_cases hupper : c.isUpper = true
  · have halpha : c.isAlpha = true := Bool.or_eq_true_iff.2 (.inl hupper)
    rw [isLetter, halpha, Bool.true_or]
  · have hsame : c.toLower = c := dif_neg fun hc => hupper (decide_eq_true hc)
    rwa [hsame] at h

theorem isWordChar_of_isLetter {c : Char} (h : isLetter c = true) : isWordChar c = true := by
  rw [isLetter, Bool.or_eq_true] at h
  rw [isWordChar, Char.isAlphanum, Bool.or_eq_true, Bool.or_eq_true]
  exact h.imp_left .inl

theorem Spelling.isLetter_of_mem {op : Junction} (word : Spelling op) :
    ∀ c ∈ word.text, isLetter c = true := by
  have hfold : Text.fold word.text = Text.fold op.word := Text.sameName_iff.1 word.same
  have hletters : ∀ d ∈ Text.fold op.word, isLetter d = true :=
    List.all_eq_true.1 (by cases op <;> rfl)
  exact fun c hc => isLetter_of_toLower (hletters _ (hfold ▸ List.mem_map_of_mem hc))

/-- The word of a junction is an identifier in any spelling. -/
theorem Spelling.isIdentifier {op : Junction} (word : Spelling op) : IsIdentifier word.text := by
  have hfold : Text.fold word.text = Text.fold op.word := Text.sameName_iff.1 word.same
  have hall := word.isLetter_of_mem
  cases htext : word.text with
  | nil =>
    rw [htext] at hfold
    cases op <;> cases hfold
  | cons c w =>
    rw [htext, List.forall_mem_cons] at hall
    exact ⟨c, w, rfl, hall.1, identifierLength_eq fun d hd => isWordChar_of_isLetter (hall.2 d hd)⟩

/-- A word between spaces, in front of what is no space. -/
theorem lexemes_spaced {word : Text} {l : Lexeme}
    (hword : ∀ rest : Text, lexemes (word ++ ' ' :: rest) = l :: lexemes (' ' :: rest))
    (hfirst : ∃ d w, word = d :: w ∧ Text.isMarkupSpace d = false) {behind : Text}
    (hbehind : ∀ d ∈ behind.head?, Text.isMarkupSpace d = false) :
    lexemes (' ' :: (word ++ ' ' :: behind)) =
      (.space, [' ']) :: l :: (.space, [' ']) :: lexemes behind := by
  obtain ⟨d, w, rfl, hd⟩ := hfirst
  have hbefore : ∀ e ∈ (d :: w ++ ' ' :: behind).head?, Text.isMarkupSpace e = false := by
    intro e he
    cases he
    exact hd
  rw [lexemes_space hbefore, hword, lexemes_space hbehind]

theorem Comparison.exists_head (op : Comparison) :
    ∃ d w, op.text.toList = d :: w ∧ Text.isMarkupSpace d = false := by
  cases op <;> exact ⟨_, _, rfl, rfl⟩

theorem Spelling.exists_head {op : Junction} (word : Spelling op) :
    ∃ d w, word.text = d :: w ∧ Text.isMarkupSpace d = false := by
  obtain ⟨d, w, htext, hd, -⟩ := word.isIdentifier
  exact ⟨d, w, htext, isMarkupSpace_of_isLetter hd⟩

/-! ## Conditions -/

namespace WrittenCondition

/-- Lexemes, in parentheses if they are needed. -/
def encloseLexed (loose : Bool) (ls : List Lexeme) : List Lexeme :=
  if loose then (.leftParen, ['(']) :: (ls ++ [(.rightParen, [')'])]) else ls

mutual

/-- The lexemes of a condition. -/
def lexed : WrittenCondition → List Lexeme
  | .quoted value => (.quote, ['\'']) :: (lexemes value.text ++ [(.quote, ['\''])])
  | .call function arguments =>
    (.identifier, function.text) :: (.leftParen, ['(']) ::
      (lexedAll arguments ++ [(.rightParen, [')'])])
  | .compare op left right =>
    encloseLexed (left.isLoose .operand) left.lexed ++ (.space, [' ']) ::
      (.comparison op, op.text.toList) :: (.space, [' ']) ::
        encloseLexed (right.isLoose .operand) right.lexed
  | .negation operand => (.bang, ['!']) :: encloseLexed (operand.isLoose .term) operand.lexed
  | .junction op word left right =>
    encloseLexed (left.isLoose (leftStrength op)) left.lexed ++ (.space, [' ']) ::
      (.identifier, word.text) :: (.space, [' ']) ::
        encloseLexed (right.isLoose (rightStrength op)) right.lexed

/-- The lexemes of arguments. -/
def lexedAll : List WrittenCondition → List Lexeme
  | [] => []
  | [c] => c.lexed
  | c :: d :: cs => c.lexed ++ (.comma, [',']) :: (.space, [' ']) :: lexedAll (d :: cs)

end

/-- What a condition begins with does not go on with space or with `!`. -/
theorem exists_head : ∀ (loose : Bool) (c : WrittenCondition), ∃ d t,
    enclose loose c.print = d :: t ∧ Text.isMarkupSpace d = false ∧ d ≠ '='
  | true, c => ⟨'(', c.print ++ [')'], rfl, rfl, by decide⟩
  | false, .quoted value => ⟨'\'', value.text ++ ['\''], rfl, rfl, by decide⟩
  | false, .negation operand => ⟨'!', _, rfl, rfl, by decide⟩
  | false, .call function arguments => by
    obtain ⟨c, w, htext, hc, -⟩ := function.isIdentifier
    refine ⟨c, w ++ '(' :: (printAll arguments ++ [')']), ?_, ?_, ?_⟩
    · rw [enclose, print, htext]
      rfl
    · exact isMarkupSpace_of_isLetter hc
    · rintro rfl
      cases hc
  | false, .compare op left right => by
    obtain ⟨d, t, hprint, hd⟩ := exists_head (left.isLoose .operand) left
    exact ⟨d, _, by rw [enclose, print, hprint]; rfl, hd⟩
  | false, .junction op word left right => by
    obtain ⟨d, t, hprint, hd⟩ := exists_head (left.isLoose (leftStrength op)) left
    exact ⟨d, _, by rw [enclose, print, hprint]; rfl, hd⟩

/-- Whether the lexemes of a text in front of any other are the given ones. -/
def Lexes (t : Text) (ls : List Lexeme) : Prop :=
  ∀ rest : Text, lexemes (t ++ rest) = ls ++ lexemes rest

/-- A comparison is a lexeme in front of a space. -/
theorem lexemes_comparison (op : Comparison) (rest : Text) :
    lexemes (op.text.toList ++ ' ' :: rest) =
      (.comparison op, op.text.toList) :: lexemes (' ' :: rest) := by
  cases op with
  | equal => exact lexemes_cons (w := ['=']) rfl nofun
  | notEqual => exact lexemes_cons (w := ['=']) rfl nofun
  | less => exact lexemes_cons (w := []) rfl nofun
  | lessOrEqual => exact lexemes_cons (w := ['=']) rfl nofun
  | greater => exact lexemes_cons (w := []) rfl nofun
  | greaterOrEqual => exact lexemes_cons (w := ['=']) rfl nofun

theorem Lexes.enclose {t : Text} {ls : List Lexeme} (h : Lexes t ls) (loose : Bool) :
    Lexes (enclose loose t) (encloseLexed loose ls) := by
  cases loose with
  | false => exact h
  | true =>
    intro rest
    have hopen : lexemes ('(' :: (t ++ ')' :: rest)) = _ :=
      lexemes_sign .leftParen (fun _ => rfl) nofun _
    have hclose : lexemes (')' :: rest) = _ := lexemes_sign .rightParen (fun _ => rfl) nofun _
    rw [h, hclose] at hopen
    simpa [WrittenCondition.enclose, encloseLexed] using hopen

theorem head_enclose (loose : Bool) (c : WrittenCondition) (rest : Text) :
    ∀ d ∈ (enclose loose c.print ++ rest).head?, Text.isMarkupSpace d = false := by
  obtain ⟨e, t, hprint, he, -⟩ := exists_head loose c
  rw [hprint]
  intro d hd
  cases hd
  exact he

mutual

/-- **The lexemes of a condition** are those of its parts. -/
theorem lexes_print : ∀ c : WrittenCondition, Lexes c.print c.lexed
  | .quoted value => by
    intro rest
    have hopen : lexemes ('\'' :: (value.text ++ '\'' :: rest)) = _ :=
      lexemes_sign .quote (fun _ => rfl) nofun _
    rw [lexemes_plain value.plain] at hopen
    simpa [print, lexed] using hopen
  | .call function arguments => by
    intro rest
    have hname := lexemes_identifier function.isIdentifier (d := '(') rfl (by decide)
      (printAll arguments ++ ')' :: rest)
    have hopen : lexemes ('(' :: (printAll arguments ++ ')' :: rest)) = _ :=
      lexemes_sign .leftParen (fun _ => rfl) nofun _
    have hclose : lexemes (')' :: rest) = _ := lexemes_sign .rightParen (fun _ => rfl) nofun _
    rw [hopen, lexes_printAll arguments, hclose] at hname
    simpa [print, lexed] using hname
  | .compare op left right => by
    intro rest
    have hleft := (lexes_print left).enclose (left.isLoose .operand)
    have hright := (lexes_print right).enclose (right.isLoose .operand)
    rw [print, List.append_assoc, hleft, List.cons_append, List.append_assoc, List.cons_append,
      lexemes_spaced (lexemes_comparison op) op.exists_head (head_enclose _ right rest), hright, lexed]
    simp
  | .negation operand => by
    intro rest
    have hoperand := (lexes_print operand).enclose (operand.isLoose .term)
    obtain ⟨d, t, hprint, -, hd⟩ := exists_head (operand.isLoose .term) operand
    have hread : readToken '!' ([] ++ (enclose (operand.isLoose .term) operand.print ++ rest)) =
        (.bang, 1) := by
      rw [hprint]
      exact if_neg (by simpa using hd)
    have hbang := lexemes_cons hread nofun
    rw [hoperand] at hbang
    exact hbang
  | .junction op word left right => by
    intro rest
    have hleft := (lexes_print left).enclose (left.isLoose (leftStrength op))
    have hright := (lexes_print right).enclose (right.isLoose (rightStrength op))
    have hword := lexemes_identifier word.isIdentifier (d := ' ') rfl (by decide)
    rw [print, List.append_assoc, hleft, List.cons_append, List.append_assoc, List.cons_append,
      lexemes_spaced hword word.exists_head (head_enclose _ right rest), hright, lexed]
    simp

/-- So are those of its arguments. -/
theorem lexes_printAll : ∀ cs : List WrittenCondition, Lexes (printAll cs) (lexedAll cs)
  | [] => fun _ => rfl
  | [c] => lexes_print c
  | c :: d :: cs => by
    intro rest
    have hrest := lexes_printAll (d :: cs)
    have hcomma : lexemes (',' :: ' ' :: (printAll (d :: cs) ++ rest)) = _ :=
      lexemes_sign .comma (fun _ => rfl) nofun _
    have hhead : ∀ e ∈ (printAll (d :: cs) ++ rest).head?, Text.isMarkupSpace e = false := by
      obtain ⟨e, t, hprint, he, -⟩ := exists_head false d
      have hprint' : d.print = e :: t := hprint
      intro e' he'
      cases cs <;> (rw [printAll, hprint'] at he'; cases he'; exact he)
    rw [printAll, List.append_assoc, lexes_print c, List.cons_append, List.cons_append, hcomma,
      lexemes_space hhead, hrest, lexedAll]
    simp

end

/-- A condition has its lexemes. -/
theorem lexemes_print (c : WrittenCondition) : lexemes c.print = c.lexed := by
  have hall := lexes_print c []
  rw [List.append_nil] at hall
  exact hall.trans (List.append_nil _)

end WrittenCondition

end ProjectFile.Expression
