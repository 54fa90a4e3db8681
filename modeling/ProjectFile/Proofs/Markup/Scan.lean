import ProjectFile.Markup.Piece
import ProjectFile.Proofs.Text.Front

/-!
What scanning keeps of a text.

Every reader of the flat scan answers with something whose text is the front of what it was given,
and goes on behind it. From the smallest reader up:

1. `TagToken.text_read_prefix`: the token at a character is the front of the text there, and it is
   not empty.
2. `TagToken.flatMap_text_readAll_prefix`: the tokens of a tag joined are the front of the text
   after the opener; `pairwise_isLast_readAll` says that only the last one ends the tag.
3. `StartTag.text_ofTokens`, `EndTag.text_ofTokens`: a tag put together from tokens has their text,
   whichever tokens are missing, doubled or out of place.
4. `Piece.flatMap_text_ofText`: the pieces of a text joined are the text.

`Piece.Solid` collects what it takes for a piece to have no empty token, and `solid_ofText` says
that every piece of a text is so.
-/

namespace ProjectFile

namespace Markup

/-! ## Tokens inside a tag -/

namespace TagToken

/-- A string's text is its opening quote and a front part of what follows it. -/
theorem text_readString_prefix (quote : Char) (rest : Text) :
    (readString quote rest).text <+: quote :: rest := by
  have hsplit : rest.takeWhile (fun c => c != quote && c != '<') ++
      rest.dropWhile (fun c => c != quote && c != '<') = rest := List.takeWhile_append_dropWhile
  rw [Quoted.text, List.cons_prefix_cons]
  refine ⟨rfl, ?_⟩
  simp only [readString, Text.take_lengthWhile, Text.drop_lengthWhile]
  cases hd : rest.dropWhile (fun c => c != quote && c != '<') with
  | nil => simpa using List.takeWhile_prefix _
  | cons c after =>
    rw [hd] at hsplit
    by_cases hc : c = quote
    · refine ⟨after, ?_⟩
      simpa [hc] using hsplit
    · refine ⟨c :: after, ?_⟩
      simpa [hc] using hsplit

/-- The token at a character is the front of the text there. -/
theorem text_read_prefix (c : Char) (rest : Text) : (read c rest).text <+: c :: rest := by
  unfold read
  split
  · next h => exact ⟨rest, by rw [h]; rfl⟩
  split
  · next h => exact ⟨rest, by rw [h]; rfl⟩
  split
  · next h =>
    subst h
    split
    · next hr =>
      obtain ⟨after, rfl⟩ := List.head?_eq_some_iff.1 hr
      exact ⟨after, rfl⟩
    · exact ⟨rest, rfl⟩
  split
  · exact text_readString_prefix c rest
  split
  · exact (List.prefix_cons_inj c).2 (List.take_prefix _ _)
  · exact (List.prefix_cons_inj c).2 (List.take_prefix _ _)

theorem text_read_ne_nil (c : Char) (rest : Text) : (read c rest).text ≠ [] := by
  unfold read
  split
  · simp [text]
  split
  · simp [text]
  split
  · split <;> simp [text]
  split
  · simp [text, Quoted.text]
  split <;> simp [text]

theorem readAll_skip (n : Nat) (t : Text) : readAll n t = readAll 0 (t.drop n) := by
  induction t generalizing n with
  | nil => cases n <;> rfl
  | cons c t ih =>
    cases n with
    | zero => rfl
    | succ n => exact ih n

/-- A token that does not end the tag is followed by the tokens of what stands behind its text. -/
theorem readAll_cons {c : Char} {rest after : Text} (hc : c ≠ '<')
    (h : c :: rest = (read c rest).text ++ after) :
    readAll 0 (c :: rest) =
      if (read c rest).isLast then [read c rest] else read c rest :: readAll 0 after := by
  have hdrop : rest.drop ((read c rest).text.length - 1) = after := by
    cases hword : (read c rest).text with
    | nil => exact absurd hword (text_read_ne_nil c rest)
    | cons d word =>
      rw [hword, List.cons_append, List.cons.injEq] at h
      rw [h.2]
      exact List.drop_left
  rw [readAll, if_neg hc]
  dsimp only
  rw [readAll_skip, hdrop]

/-- Induction along the tokens of a tag: no token is left, the last one is read, or one is read and
the tag goes on behind it. -/
theorem readAll_induction {P : List TagToken → Text → Prop} (stop : ∀ t, P [] t)
    (last : ∀ (token : TagToken) (after : Text), token.text ≠ [] → P [token] (token.text ++ after))
    (more : ∀ (token : TagToken) (after : Text), token.text ≠ [] → token.isLast = false →
      P (readAll 0 after) after → P (token :: readAll 0 after) (token.text ++ after))
    (t : Text) : P (readAll 0 t) t := by
  -- No token is empty, so what stands behind one is shorter.
  induction hlen : t.length using Nat.strongRecOn generalizing t with
  | ind n ih =>
    cases t with
    | nil => exact stop []
    | cons c rest =>
      by_cases hc : c = '<'
      · rw [readAll, if_pos hc]
        exact stop _
      · obtain ⟨after, hafter⟩ := text_read_prefix c rest
        have hne := text_read_ne_nil c rest
        rw [readAll_cons hc hafter.symm]
        rw [← hafter] at hlen ⊢
        split
        · exact last _ _ hne
        · next hlast =>
          refine more _ _ hne (by simpa using hlast) (ih after.length ?_ after rfl)
          have := List.length_pos_iff.2 hne
          rw [List.length_append] at hlen
          omega

/-- **The tokens of a tag, joined, are the front of the text after its opener.** -/
theorem flatMap_text_readAll_prefix (t : Text) : (readAll 0 t).flatMap text <+: t := by
  refine readAll_induction (P := fun tokens t => tokens.flatMap text <+: t) ?_ ?_ ?_ t
  · intro t
    exact List.nil_prefix
  · intro token after _
    simp
  · intro token after _ _ ih
    simpa using ih

theorem text_ne_nil_of_mem_readAll (t : Text) : ∀ token ∈ readAll 0 t, token.text ≠ [] := by
  refine readAll_induction (P := fun tokens _ => ∀ token ∈ tokens, token.text ≠ []) ?_ ?_ ?_ t
  · simp
  · intro token after hne
    simpa using hne
  · intro token after hne _ ih
    exact List.forall_mem_cons.2 ⟨hne, ih⟩

/-- Only the last token of a tag ends it. -/
theorem pairwise_isLast_readAll (t : Text) :
    (readAll 0 t).Pairwise fun token _ => token.isLast = false := by
  refine readAll_induction (P := fun tokens _ => tokens.Pairwise fun token _ => token.isLast = false)
    ?_ ?_ ?_ t
  · intro t
    exact List.Pairwise.nil
  · intro token after _
    exact List.pairwise_singleton _ _
  · intro token after _ hlast ih
    exact List.pairwise_cons.2 ⟨fun _ _ => hlast, ih⟩

/-- A name that is taken and the tokens after it are the tokens before. -/
theorem text_takeName (tokens : List TagToken) :
    (takeName tokens).1.getD [] ++ (takeName tokens).2.flatMap text = tokens.flatMap text := by
  unfold takeName
  split
  · rfl
  · rfl

theorem takeName_suffix (tokens : List TagToken) : (takeName tokens).2 <:+ tokens := by
  unfold takeName
  split
  · exact List.suffix_cons _ _
  · exact List.suffix_refl _

end TagToken

/-! ## Tags put together from tokens -/

/-- The assignment in front of some tokens takes none that ends the tag, and its text is theirs. -/
theorem Assignment.read_spec (tokens : List TagToken) :
    ∃ taken rest, tokens = taken ++ rest ∧ taken.length = (read tokens).2 ∧
      (∀ token ∈ taken, token.isLast = false) ∧
      (read tokens).1.text = taken.flatMap TagToken.text := by
  have value (before : List TagToken) (space : Text) (rest : List TagToken)
      (hlast : ∀ token ∈ before, token.isLast = false)
      (hbefore : before.flatMap TagToken.text = space ++ ['=']) :
      ∃ taken rest', before ++ rest = taken ++ rest' ∧
        taken.length = (read.value space before.length rest).2 ∧
        (∀ token ∈ taken, token.isLast = false) ∧
        (read.value space before.length rest).1.text = taken.flatMap TagToken.text := by
    unfold read.value
    split
    · next after q rest' =>
      refine ⟨before ++ [.space after, .string q], rest', by simp, by simp, ?_, ?_⟩
      · simpa [or_imp, forall_and, TagToken.isLast] using hlast
      · simp [hbefore, text, TagToken.text]
    · next q rest' =>
      refine ⟨before ++ [.string q], rest', by simp, by simp, ?_, ?_⟩
      · simpa [or_imp, forall_and, TagToken.isLast] using hlast
      · simp [hbefore, text, TagToken.text]
    · exact ⟨before, rest, rfl, rfl, hlast, hbefore.symm⟩
  unfold read
  split
  · next before rest =>
    exact value [.space before, .equals] before rest (by simp [TagToken.isLast])
      (by simp [TagToken.text])
  · next rest => exact value [.equals] [] rest (by simp [TagToken.isLast]) (by simp [TagToken.text])
  · exact ⟨[], tokens, rfl, rfl, by simp, rfl⟩

/-- The ending of a start tag with the given tokens. -/
def TagEnding.ofTokens (tokens : List TagToken) : TagEnding :=
  match tokens.getLast? with
  | some .rightAngle => .content
  | some .slashRightAngle => .selfClosed
  | _ => .missing

/-- Tokens that do not end the tag do not count for its ending. -/
theorem TagEnding.ofTokens_append (taken rest : List TagToken)
    (h : ∀ token ∈ taken, token.isLast = false) :
    TagEnding.ofTokens (taken ++ rest) = TagEnding.ofTokens rest := by
  cases rest with
  | cons token rest =>
    have hlast : (taken ++ token :: rest).getLast? = (token :: rest).getLast? := by
      rw [List.getLast?_append, List.getLast?_cons, Option.some_or]
    rw [TagEnding.ofTokens, TagEnding.ofTokens, hlast]
  | nil =>
    rw [List.append_nil]
    cases hlast : taken.getLast? with
    | none => rw [List.getLast?_eq_none_iff.1 hlast]
    | some token =>
      have hfalse := h token (List.mem_of_getLast? hlast)
      cases token with
      | rightAngle => cases hfalse
      | slashRightAngle => cases hfalse
      | _ => simp [TagEnding.ofTokens, hlast]

/-- The items read from some tokens and the ending after them have the text of the tokens. -/
theorem TagItem.flatMap_text_readAll (tokens : List TagToken) (n : Nat)
    (hlast : tokens.Pairwise fun token _ => token.isLast = false)
    (htaken : ∀ token ∈ tokens.take n, token.isLast = false) :
    (readAll n tokens).flatMap text ++ (TagEnding.ofTokens (tokens.drop n)).text =
      (tokens.drop n).flatMap TagToken.text := by
  induction tokens generalizing n with
  | nil => cases n <;> rfl
  | cons token rest ih =>
    rw [List.pairwise_cons] at hlast
    cases n with
    | succ n =>
      rw [List.take_succ_cons, List.forall_mem_cons] at htaken
      exact ih n hlast.2 htaken.2
    | zero =>
      -- All tokens but names, space apart, are junk and are kept as they are.
      have hfiller (hnot : token.isLast = false) :
          (readAll 0 rest).flatMap text ++ (TagEnding.ofTokens (token :: rest)).text =
            rest.flatMap TagToken.text := by
        have hending := TagEnding.ofTokens_append [token] rest (by simpa using hnot)
        rw [List.singleton_append] at hending
        rw [hending]
        exact ih 0 hlast.2 (by simp)
      have hend (hlast' : token.isLast = true) : rest = [] := by
        cases rest with
        | nil => rfl
        | cons next rest => simp [hlast.1 next (by simp)] at hlast'
      rw [List.drop_zero]
      cases token with
      | rightAngle => rw [hend rfl]; rfl
      | slashRightAngle => rw [hend rfl]; rfl
      | name n =>
        obtain ⟨taken, after, rfl, hlen, hnot, htext⟩ := Assignment.read_spec rest
        have hrest := ih (Assignment.read (taken ++ after)).2 hlast.2
        rw [← hlen, List.take_left, List.drop_left] at hrest
        have hending := TagEnding.ofTokens_append (.name n :: taken) after
          (List.forall_mem_cons.2 ⟨rfl, hnot⟩)
        rw [List.cons_append] at hending
        simp only [readAll, List.flatMap_cons, text, Attribute.text, htext, hending, TagToken.text,
          List.append_assoc, List.flatMap_append]
        rw [← hlen, hrest hnot]
      | space t => simpa [readAll, text, Filler.text, TagToken.text] using hfiller rfl
      | equals => simpa [readAll, text, Filler.text, TagToken.text] using hfiller rfl
      | string q => simpa [readAll, text, Filler.text, TagToken.text] using hfiller rfl
      | slash => simpa [readAll, text, Filler.text, TagToken.text] using hfiller rfl

/-- **A start tag has the text of its opener and its tokens.** -/
theorem StartTag.text_ofTokens (opener : Text) {tokens : List TagToken}
    (hlast : tokens.Pairwise fun token _ => token.isLast = false) :
    (ofTokens opener tokens).text = opener ++ tokens.flatMap TagToken.text := by
  have htaken := TagToken.text_takeName tokens
  have hending : TagEnding.ofTokens tokens = TagEnding.ofTokens (TagToken.takeName tokens).2 := by
    unfold TagToken.takeName
    split
    · next n rest => exact TagEnding.ofTokens_append [.name n] rest (by simp [TagToken.isLast])
    · rfl
  have hrest := hlast.sublist (TagToken.takeName_suffix tokens).sublist
  have hitems := TagItem.flatMap_text_readAll (TagToken.takeName tokens).2 0 hrest (by simp)
  rw [List.drop_zero, ← hending] at hitems
  rw [← htaken, ← hitems]
  rfl

/-- The fillers of an end tag and its `>` have the text of the tokens. -/
theorem Filler.flatMap_text_ofTokens (tokens : List TagToken)
    (hlast : tokens.Pairwise fun token _ => token.isLast = false) :
    (ofTokens tokens).flatMap text ++
        (if tokens.getLast? == some TagToken.rightAngle then ['>'] else []) =
      tokens.flatMap TagToken.text := by
  induction tokens with
  | nil => rfl
  | cons token rest ih =>
    rw [List.pairwise_cons] at hlast
    have hrest := ih hlast.2
    cases rest with
    | nil => cases token <;> simp [ofTokens, text, TagToken.text]
    | cons next rest =>
      have hnot := hlast.1 next (by simp)
      rw [List.getLast?_cons_cons, List.flatMap_cons, ← hrest]
      cases token with
      | rightAngle => cases hnot
      | slashRightAngle => cases hnot
      | _ => simp [ofTokens, text, TagToken.text]

/-- **An end tag has the text of its opener and its tokens.** -/
theorem EndTag.text_ofTokens {tokens : List TagToken}
    (hlast : tokens.Pairwise fun token _ => token.isLast = false) :
    (ofTokens tokens).text = opener ++ tokens.flatMap TagToken.text := by
  have htaken := TagToken.text_takeName tokens
  have hrest := hlast.sublist (TagToken.takeName_suffix tokens).sublist
  have hclosed : (tokens.getLast? == some TagToken.rightAngle) =
      ((TagToken.takeName tokens).2.getLast? == some TagToken.rightAngle) := by
    unfold TagToken.takeName
    split
    · next n rest => cases rest <;> simp
    · rfl
  have hfillers := Filler.flatMap_text_ofTokens (TagToken.takeName tokens).2 hrest
  rw [← htaken, ← hfillers, ← hclosed]
  rfl

/-! ## Parts that are not empty -/

/-- Whether the item of a start tag has no empty token. -/
def TagItem.Solid : TagItem → Prop
  | .attribute a => a.name ≠ []
  | .filler f => f.text ≠ []

/-- A start tag without empty tokens. -/
structure StartTag.Solid (tag : StartTag) : Prop where
  opener : tag.opener ≠ []
  name : tag.name ≠ some []
  items : ∀ i ∈ tag.items, i.Solid

/-- An end tag without empty tokens. -/
structure EndTag.Solid (tag : EndTag) : Prop where
  name : tag.name ≠ some []
  fillers : ∀ f ∈ tag.fillers, f.text ≠ []

/-- Whether the piece has no empty token. -/
def Piece.Solid : Piece → Prop
  | .start tag => tag.Solid
  | .stop tag => tag.Solid
  | .run _ t => t ≠ []

theorem TagToken.takeName_ne_some_nil {tokens : List TagToken}
    (h : ∀ token ∈ tokens, token.text ≠ []) : (takeName tokens).1 ≠ some [] := by
  unfold takeName
  split
  · next n rest =>
    have hn : n ≠ [] := h (.name n) (by simp)
    simpa using hn
  · simp

theorem TagItem.solid_readAll {tokens : List TagToken} (n : Nat)
    (h : ∀ token ∈ tokens, token.text ≠ []) : ∀ i ∈ readAll n tokens, i.Solid := by
  induction tokens generalizing n with
  | nil => cases n <;> simp [readAll]
  | cons token rest ih =>
    rw [List.forall_mem_cons] at h
    cases n with
    | succ n => exact ih n h.2
    | zero =>
      cases token with
      | rightAngle => simp [readAll]
      | slashRightAngle => simp [readAll]
      | name n => exact List.forall_mem_cons.2 ⟨h.1, ih _ h.2⟩
      | space t => exact List.forall_mem_cons.2 ⟨h.1, ih 0 h.2⟩
      | equals => exact List.forall_mem_cons.2 ⟨h.1, ih 0 h.2⟩
      | string q => exact List.forall_mem_cons.2 ⟨h.1, ih 0 h.2⟩
      | slash => exact List.forall_mem_cons.2 ⟨h.1, ih 0 h.2⟩

theorem Filler.text_ne_nil_of_mem_ofTokens {tokens : List TagToken}
    (h : ∀ token ∈ tokens, token.text ≠ []) : ∀ f ∈ ofTokens tokens, f.text ≠ [] := by
  induction tokens with
  | nil => simp [ofTokens]
  | cons token rest ih =>
    rw [List.forall_mem_cons] at h
    cases token with
    | rightAngle => simp [ofTokens]
    | _ => exact List.forall_mem_cons.2 ⟨h.1, ih h.2⟩

theorem StartTag.solid_ofTokens {opener : Text} {tokens : List TagToken} (hopener : opener ≠ [])
    (h : ∀ token ∈ tokens, token.text ≠ []) : (ofTokens opener tokens).Solid where
  opener := hopener
  name := TagToken.takeName_ne_some_nil h
  items := TagItem.solid_readAll 0 fun token htoken =>
    h token ((TagToken.takeName_suffix tokens).subset htoken)

theorem EndTag.solid_ofTokens {tokens : List TagToken} (h : ∀ token ∈ tokens, token.text ≠ []) :
    (ofTokens tokens).Solid where
  name := TagToken.takeName_ne_some_nil h
  fillers := Filler.text_ne_nil_of_mem_ofTokens fun token htoken =>
    h token ((TagToken.takeName_suffix tokens).subset htoken)

/-! ## Pieces -/

namespace Piece

/-- A piece that is the front of a text and has no empty token. -/
def IsFront (p : Piece) (t : Text) : Prop := p.text <+: t ∧ p.Solid

theorem take_ne_nil {n : Nat} (hn : 0 < n) {t : Text} (ht : t ≠ []) : t.take n ≠ [] := by
  intro hnil
  rcases List.take_eq_nil_iff.1 hnil with hzero | hnil
  · omega
  · exact ht hnil

theorem isFront_readRun (kind : RunKind) {opener : Nat} (hopener : 0 < opener) (stop : Text)
    {t : Text} (ht : t ≠ []) : (readRun kind opener stop t).IsFront t := by
  refine ⟨List.take_prefix _ _, ?_⟩
  exact take_ne_nil (Nat.add_pos_left hopener _) ht

theorem isFront_readStart {opener : Nat} (hopener : 0 < opener) {t : Text} (ht : t ≠ []) :
    (readStart opener t).1.IsFront t := by
  have htokens := TagToken.flatMap_text_readAll_prefix (t.drop opener)
  constructor
  · show (StartTag.ofTokens _ _).text <+: t
    rw [StartTag.text_ofTokens _ (TagToken.pairwise_isLast_readAll _)]
    conv => rhs; rw [← List.take_append_drop opener t]
    exact (List.prefix_append_right_inj _).2 htokens
  · have htake : t.take opener ≠ [] := take_ne_nil hopener ht
    exact StartTag.solid_ofTokens htake (TagToken.text_ne_nil_of_mem_readAll _)

theorem isFront_readStop {t : Text} (ht : ['<', '/'] <+: t) : (readStop t).1.IsFront t := by
  obtain ⟨rest, rfl⟩ := ht
  constructor
  · show (EndTag.ofTokens _).text <+: _
    rw [EndTag.text_ofTokens (TagToken.pairwise_isLast_readAll _)]
    exact (List.prefix_append_right_inj ['<', '/']).2 (TagToken.flatMap_text_readAll_prefix rest)
  · exact EndTag.solid_ofTokens (TagToken.text_ne_nil_of_mem_readAll _)

/-- The beginning of a comment or of character data that is broken off: `<!`, and a sign that begins
no name. -/
theorem exists_of_broken {rest : Text} (h : (['<', '!', '-'].isPrefixOf ('<' :: rest) ||
    ['<', '!', '['].isPrefixOf ('<' :: rest)) = true) :
    ∃ c tail, rest = '!' :: c :: tail ∧ (c = '-' ∨ c = '[') := by
  rw [Bool.or_eq_true, List.isPrefixOf_iff_prefix, List.isPrefixOf_iff_prefix] at h
  rcases h with ⟨tail, htail⟩ | ⟨tail, htail⟩ <;> cases htail
  · exact ⟨'-', tail, rfl, .inl rfl⟩
  · exact ⟨'[', tail, rfl, .inr rfl⟩

theorem isFront_readMarkup (mode : Mode) {t : Text} (ht : t ≠ []) :
    (readMarkup mode t).1.IsFront t := by
  unfold readMarkup
  split
  · next h => exact isFront_readStop (List.isPrefixOf_iff_prefix.1 h)
  split
  · exact isFront_readStart Nat.one_pos ht
  split
  · exact isFront_readRun _ (by decide) _ ht
  split
  · exact isFront_readRun _ (by decide) _ ht
  split
  · exact isFront_readRun _ (by decide) _ ht
  split
  · exact isFront_readStart (by decide) ht
  split
  · exact isFront_readRun _ (by decide) _ ht
  · exact isFront_readStart Nat.one_pos ht

theorem isFront_readData {c : Char} (hc : c ≠ '<') (rest : Text) :
    (readData (c :: rest)).IsFront (c :: rest) := by
  refine ⟨List.take_prefix _ _, ?_⟩
  show List.take _ _ ≠ []
  simp [Text.lengthWhile, hc]

/-- The piece that begins with the character in front of a text, and the mode after it. -/
def readNext (mode : Mode) (c : Char) (rest : Text) : Piece × Mode :=
  if c = '<' then readMarkup mode (c :: rest) else (readData (c :: rest), .content)

theorem isFront_readNext (mode : Mode) (c : Char) (rest : Text) :
    (readNext mode c rest).1.IsFront (c :: rest) := by
  unfold readNext
  split
  · exact isFront_readMarkup mode (List.cons_ne_nil c rest)
  · next hc => exact isFront_readData hc rest

theorem text_ne_nil {p : Piece} (h : p.Solid) : p.text ≠ [] := by
  cases p with
  | start tag =>
    intro hnil
    exact h.opener (List.append_eq_nil_iff.1 hnil).1
  | stop tag => simp [text, EndTag.text, EndTag.opener]
  | run kind t => exact h

theorem readAll_skip (mode : Mode) (n : Nat) (t : Text) :
    readAll mode n t = readAll mode 0 (t.drop n) := by
  induction t generalizing n with
  | nil => cases n <;> rfl
  | cons c t ih =>
    cases n with
    | zero => rfl
    | succ n => exact ih n

/-- A piece is followed by the pieces of what stands behind its text, read in the mode after it. -/
theorem readAll_cons (mode : Mode) {c : Char} {rest after : Text}
    (h : c :: rest = (readNext mode c rest).1.text ++ after) :
    readAll mode 0 (c :: rest) =
      (readNext mode c rest).1 :: readAll (readNext mode c rest).2 0 after := by
  have hdrop : rest.drop ((readNext mode c rest).1.text.length - 1) = after := by
    cases hword : (readNext mode c rest).1.text with
    | nil => exact absurd hword (text_ne_nil (isFront_readNext mode c rest).2)
    | cons d word =>
      rw [hword, List.cons_append, List.cons.injEq] at h
      rw [h.2]
      exact List.drop_left
  show (readNext mode c rest).1 :: readAll (readNext mode c rest).2
    ((readNext mode c rest).1.text.length - 1) rest = _
  rw [readAll_skip, hdrop]

/-- The pieces read in any mode, joined, are the text, and none has an empty token. -/
theorem readAll_spec (mode : Mode) (t : Text) :
    (readAll mode 0 t).flatMap text = t ∧ ∀ p ∈ readAll mode 0 t, p.Solid := by
  induction hlen : t.length using Nat.strongRecOn generalizing mode t with
  | ind n ih =>
    cases t with
    | nil => simp [readAll]
    | cons c rest =>
      obtain ⟨⟨after, hafter⟩, hsolid⟩ := isFront_readNext mode c rest
      have hpos := List.length_pos_iff.2 (text_ne_nil hsolid)
      have hshort : after.length < n := by
        rw [← hlen, ← hafter, List.length_append]
        omega
      obtain ⟨htext, hall⟩ := ih after.length hshort (readNext mode c rest).2 after rfl
      rw [readAll_cons mode hafter.symm]
      constructor
      · rw [List.flatMap_cons, htext, hafter]
      · exact List.forall_mem_cons.2 ⟨hsolid, hall⟩

/-- **The pieces of a text, joined, are the text.** -/
theorem flatMap_text_ofText (t : Text) : (ofText t).flatMap text = t := (readAll_spec .content t).1

theorem solid_ofText (t : Text) : ∀ p ∈ ofText t, p.Solid := (readAll_spec .content t).2

end Piece

end Markup

end ProjectFile
