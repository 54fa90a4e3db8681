import ProjectFile.Proofs.Markup.Sound

/-!
The tokens that a start tag is made of.

A start tag without errors and the tokens it is read from determine each other: the items stand for
their tokens (`TagItem.tokens`), and the tokens give the items back (`TagItem.readAll_tokens`,
`TagItem.eq_tokens`). So a tag may be taken apart between any two of its tokens, and what stands in
front of the place is read the same before another text, as long as that text is not taken for more
of the last token (`TagToken.EndsBefore`, `TagToken.readAll_replace`).
-/

namespace ProjectFile.Markup

/-! ## Tokens in front of another text -/

namespace TagToken

/-- Whether nothing of a text is taken for more of a token in front of it. -/
def EndsBefore (rest : Text) : TagToken → Prop
  | .name _ => ∀ c ∈ rest.head?, isNameChar c = false
  | .space _ => ∀ c ∈ rest.head?, Text.isMarkupSpace c = false
  | .string q => q.closed = true
  | .slash => rest.head? ≠ some '>'
  | .equals => True
  | .rightAngle => True
  | .slashRightAngle => True

/-- A closed string is read whatever comes after it. -/
theorem readString_closed {quote : Char} {word rest rest' : Text}
    (hword : (readString quote (word ++ rest)).text = quote :: word)
    (hclosed : (readString quote (word ++ rest)).closed = true) :
    readString quote (word ++ rest') = readString quote (word ++ rest) := by
  let inside : Char → Bool := fun c => c != quote && c != '<'
  have htext : word = (word ++ rest).take (Text.lengthWhile inside (word ++ rest)) ++ [quote] := by
    have htext := (List.cons.inj hword).2
    rw [hclosed, if_pos rfl] at htext
    exact htext.symm
  obtain ⟨body, hbody, hlength⟩ : ∃ body, word = body ++ [quote] ∧
      Text.lengthWhile inside (word ++ rest) = body.length := by
    refine ⟨_, htext, ?_⟩
    rw [Text.take_lengthWhile, ← Text.lengthWhile_eq]
  subst hbody
  rw [List.append_assoc] at hlength
  have hlength' : Text.lengthWhile inside (body ++ ([quote] ++ rest')) = body.length :=
    Text.lengthWhile_stable hlength rfl
  simp only [inside] at hlength hlength'
  rw [readString, readString, List.append_assoc, List.append_assoc, hlength, hlength']
  simp

/-- **A token is read in front of any text that it ends before.** -/
theorem read_endsBefore {c : Char} {word rest rest' : Text}
    (hword : (read c (word ++ rest)).text = c :: word)
    (hends : (read c (word ++ rest)).EndsBefore rest') :
    read c (word ++ rest') = read c (word ++ rest) := by
  -- A run of characters of one class ends where the next character is of another.
  have hrun {p : Char → Bool} (htake : (word ++ rest).take (Text.lengthWhile p (word ++ rest)) = word)
      (hrest : ∀ d ∈ rest'.head?, p d = false) :
      (word ++ rest').take (Text.lengthWhile p (word ++ rest')) = word := by
    have hall : ∀ d ∈ word, p d = true := by
      rw [← htake, Text.take_lengthWhile]
      exact List.all_eq_true.1 List.all_takeWhile
    rw [Text.lengthWhile_append hall hrest, List.take_left]
  unfold read at hword hends ⊢
  by_cases hangle : c = '>'
  · simp only [if_pos hangle]
  by_cases hequals : c = '='
  · simp only [if_neg hangle, if_pos hequals]
  by_cases hslash : c = '/'
  · simp only [if_neg hangle, if_neg hequals, if_pos hslash] at hword hends ⊢
    split at hword
    · next hhead =>
      obtain rfl : word = ['>'] := (List.cons.inj hword).2.symm
      rfl
    · next hhead =>
      obtain rfl : word = [] := (List.cons.inj hword).2.symm
      rw [if_neg hhead] at hends ⊢
      rw [if_neg]
      exact hends
  simp only [if_neg hangle, if_neg hequals, if_neg hslash] at hword hends ⊢
  by_cases hquote : c = '"' ∨ c = '\''
  · simp only [if_pos hquote] at hword hends ⊢
    rw [readString_closed hword hends]
  simp only [if_neg hquote] at hword hends ⊢
  split at hword
  · next hspace =>
    rw [if_pos hspace] at hends ⊢
    have htake := (List.cons.inj hword).2
    rw [if_pos hspace, hrun htake hends, htake]
  · next hname =>
    rw [if_neg hname] at hends ⊢
    have htake := (List.cons.inj hword).2
    rw [if_neg hname, hrun htake hends, htake]

/-- The first token of a tag is the one that its first character begins. -/
theorem readAll_eq_cons {token : TagToken} {ts : List TagToken} {rest : Text}
    (hlast : token.isLast = false) (h : readAll 0 (token.text ++ rest) = token :: ts) :
    ∃ c word, token.text = c :: word ∧ c ≠ '<' ∧ read c (word ++ rest) = token ∧
      ts = readAll 0 rest := by
  have hne : token.text ≠ [] := text_ne_nil_of_mem_readAll _ token (h ▸ List.mem_cons_self)
  obtain ⟨c, word, hword⟩ := List.exists_cons_of_ne_nil hne
  rw [hword, List.cons_append] at h
  have hc : c ≠ '<' := by
    intro hc
    rw [readAll, if_pos hc] at h
    cases h
  obtain ⟨after, hafter⟩ := text_read_prefix c (word ++ rest)
  rw [readAll_cons hc hafter.symm] at h
  have hread : read c (word ++ rest) = token := by
    split at h <;> exact (List.cons.inj h).1
  rw [hread, hlast, if_neg Bool.false_ne_true, List.cons.injEq] at h
  have hrest : after = rest := by
    rw [hread, hword, List.cons_append, List.cons.injEq] at hafter
    exact List.append_cancel_left hafter.2
  exact ⟨c, word, hword, hc, hread, by rw [← h.2, hrest]⟩

/-- **Tokens that do not end the tag are read in front of any text that the last of them ends
before**, or that begins as the text there did; and behind them is read what was read there. -/
theorem readAll_replace {ts us : List TagToken} {rest : Text}
    (hread : readAll 0 (ts.flatMap text ++ rest) = ts ++ us)
    (hlast : ∀ token ∈ ts, token.isLast = false) :
    us = readAll 0 rest ∧ ∀ rest' : Text,
      (∀ token ∈ ts.getLast?, token.EndsBefore rest' ∨ rest'.head? = rest.head?) →
        readAll 0 (ts.flatMap text ++ rest') = ts ++ readAll 0 rest' := by
  induction ts with
  | nil => exact ⟨hread.symm, fun _ _ => rfl⟩
  | cons token ts ih =>
    rw [List.forall_mem_cons] at hlast
    rw [List.flatMap_cons, List.append_assoc, List.cons_append] at hread
    obtain ⟨c, word, hword, hc, hfirst, hrest⟩ := readAll_eq_cons hlast.1 hread
    obtain ⟨hus, hall⟩ := ih hrest.symm hlast.2
    refine ⟨hus, fun rest' hends => ?_⟩
    have htext : (read c (word ++ (ts.flatMap text ++ rest))).text = c :: word := by
      rw [hfirst, hword]
    have hread' : read c (word ++ (ts.flatMap text ++ rest')) = token := by
      rw [← hfirst]
      cases ts with
      | nil =>
        rcases hends token rfl with hends | hhead
        · exact read_endsBefore htext (hfirst ▸ hends)
        · exact read_append htext hhead
      | cons next ts =>
        -- The token is followed by the next one, which is not empty, and so by the same character.
        refine read_append htext ?_
        have hmem : next ∈ readAll 0 ((next :: ts).flatMap text ++ rest) := by
          rw [← hrest]
          exact List.mem_cons_self
        have hne := text_ne_nil_of_mem_readAll _ next hmem
        obtain ⟨d, rest₂, hnext⟩ := List.exists_cons_of_ne_nil hne
        simp [hnext]
    have hends' : ∀ token ∈ ts.getLast?, token.EndsBefore rest' ∨ rest'.head? = rest.head? := by
      intro last hmem
      apply hends
      rw [List.getLast?_cons]
      simp [Option.mem_def.1 hmem]
    rw [List.flatMap_cons, List.append_assoc, hword, List.cons_append,
      readAll_of_read hc hread' (by rw [hword]; rfl) hlast.1, hall rest' hends']
    rfl

end TagToken

/-! ## The tokens of items -/

/-- The token that space is, if there is any. -/
def TagToken.ofSpace (t : Text) : List TagToken := if t = [] then [] else [.space t]

theorem TagToken.text_ofSpace (t : Text) : (ofSpace t).flatMap text = t := by
  unfold ofSpace
  split
  · next h => rw [h]; rfl
  · simp [text]

theorem TagToken.isLast_of_mem_ofSpace {t : Text} : ∀ token ∈ ofSpace t, token.isLast = false := by
  unfold ofSpace
  split
  · nofun
  · simp [isLast]

/-- The tokens of an assignment. -/
def Assignment.tokens : Assignment → List TagToken
  | .absent => []
  | .bare before => TagToken.ofSpace before ++ [.equals]
  | .value before after q => TagToken.ofSpace before ++ .equals :: (TagToken.ofSpace after ++ [.string q])

/-- The tokens of an item that belongs in a tag; what does not is left out. -/
def TagItem.tokens : TagItem → List TagToken
  | .attribute a => .name a.name :: a.assignment.tokens
  | .filler (.space t) => [.space t]
  | .filler (.junk _) => []

theorem Assignment.text_tokens (a : Assignment) : a.tokens.flatMap TagToken.text = a.text := by
  cases a <;> simp [tokens, text, TagToken.text_ofSpace, TagToken.text]

theorem TagItem.text_tokens {i : TagItem} (h : i.isJunk = false) :
    i.tokens.flatMap TagToken.text = i.text := by
  match i with
  | .attribute a => simp [tokens, text, Attribute.text, Assignment.text_tokens, TagToken.text]
  | .filler (.space t) => simp [tokens, text, Filler.text, TagToken.text]
  | .filler (.junk t) => cases h

/-- The tokens of items that belong in a tag have the text of the items. -/
theorem TagItem.textOfAll_tokens {items : List TagItem} (h : ∀ i ∈ items, i.isJunk = false) :
    (items.flatMap tokens).flatMap TagToken.text = items.flatMap text := by
  induction items with
  | nil => rfl
  | cons i items ih =>
    rw [List.forall_mem_cons] at h
    rw [List.flatMap_cons, List.flatMap_append, text_tokens h.1, ih h.2, List.flatMap_cons]

theorem Assignment.isLast_of_mem_tokens {a : Assignment} :
    ∀ token ∈ a.tokens, token.isLast = false := by
  have hspace (t : Text) := @TagToken.isLast_of_mem_ofSpace t
  cases a with
  | absent => nofun
  | bare before =>
    rw [tokens, List.forall_mem_append, List.forall_mem_singleton]
    exact ⟨hspace before, rfl⟩
  | value before after q =>
    rw [tokens, List.forall_mem_append, List.forall_mem_cons, List.forall_mem_append,
      List.forall_mem_singleton]
    exact ⟨hspace before, rfl, hspace after, rfl⟩

theorem TagItem.isLast_of_mem_tokens {items : List TagItem} :
    ∀ token ∈ items.flatMap tokens, token.isLast = false := by
  rw [List.forall_mem_flatMap]
  intro i _
  match i with
  | .attribute a => exact List.forall_mem_cons.2 ⟨rfl, Assignment.isLast_of_mem_tokens⟩
  | .filler (.space t) => exact List.forall_mem_singleton.2 rfl
  | .filler (.junk t) => nofun

/-! ## Items from tokens -/

/-- An assignment with a value is read from its tokens, whatever comes after them. -/
theorem Assignment.read_tokens (before after : Text) (q : Quoted) (rest : List TagToken) :
    read ((value before after q).tokens ++ rest) =
      (value before after q, (value before after q).tokens.length) := by
  unfold tokens TagToken.ofSpace
  by_cases hbefore : before = []
  · by_cases hafter : after = []
    · subst hbefore hafter
      rfl
    · simp [hbefore, hafter, read, read.value]
  · by_cases hafter : after = []
    · simp [hbefore, hafter, read, read.value]
    · simp [hbefore, hafter, read, read.value]

/-- The assignment at the front of some tokens has taken its own. -/
theorem Assignment.eq_tokens {ts : List TagToken} (hts : ∀ token ∈ ts, token.text ≠ []) :
    ∃ rest, ts = (read ts).1.tokens ++ rest ∧ (read ts).2 = (read ts).1.tokens.length := by
  have hvalue (taken : List TagToken) {before : Text} {us : List TagToken}
      (htaken : taken = TagToken.ofSpace before ++ [.equals]) (hus : ∀ token ∈ us, token.text ≠ []) :
      ∃ rest, taken ++ us = (read.value before taken.length us).1.tokens ++ rest ∧
        (read.value before taken.length us).2 =
          (read.value before taken.length us).1.tokens.length := by
    unfold read.value
    split
    · next after q rest =>
      have hafter : TagToken.ofSpace after = [.space after] := if_neg (hus _ List.mem_cons_self)
      exact ⟨rest, by simp [tokens, htaken, hafter], by simp [tokens, htaken, hafter]⟩
    · next q rest =>
      exact ⟨rest, by simp [tokens, htaken, TagToken.ofSpace],
        by simp [tokens, htaken, TagToken.ofSpace]⟩
    · exact ⟨us, by rw [tokens, htaken], by rw [tokens, htaken]⟩
  unfold read
  split
  · next before rest =>
    rw [List.forall_mem_cons, List.forall_mem_cons] at hts
    have hbefore : TagToken.ofSpace before = [.space before] := if_neg hts.1
    exact hvalue [.space before, .equals] (by rw [hbefore]; rfl) hts.2.2
  · next rest =>
    rw [List.forall_mem_cons] at hts
    exact hvalue [.equals] rfl hts.2
  · exact ⟨ts, rfl, rfl⟩

theorem TagItem.readAll_skip (n : Nat) (ts : List TagToken) : readAll n ts = readAll 0 (ts.drop n) := by
  induction ts generalizing n with
  | nil => cases n <;> rfl
  | cons token ts ih =>
    cases n with
    | zero => rfl
    | succ n => exact ih n

/-- **Items are read from their tokens**, if none is out of place and every attribute has a value. -/
theorem TagItem.readAll_tokens {items : List TagItem} (hjunk : ∀ i ∈ items, i.isJunk = false)
    (hvalid : ∀ a ∈ attributes items, a.isValid = true) (rest : List TagToken) :
    readAll 0 (items.flatMap tokens ++ rest) = items ++ readAll 0 rest := by
  induction items with
  | nil => rfl
  | cons i items ih =>
    rw [List.forall_mem_cons] at hjunk
    rw [List.flatMap_cons, List.append_assoc]
    match i with
    | .attribute a =>
      have hattributes : attributes (.attribute a :: items) = a :: attributes items := rfl
      rw [hattributes, List.forall_mem_cons] at hvalid
      obtain ⟨name, assignment⟩ := a
      have hclosed := hvalid.1
      rw [Attribute.isValid, Bool.and_eq_true] at hclosed
      cases assignment with
      | absent => cases hclosed.2
      | bare before => cases hclosed.2
      | value before after q =>
        have hread := Assignment.read_tokens before after q (items.flatMap tokens ++ rest)
        rw [tokens, List.cons_append, readAll]
        simp only [hread]
        rw [readAll_skip, List.drop_left, ih hjunk.2 hvalid.2]
        rfl
    | .filler (.space t) =>
      rw [tokens, List.singleton_append, readAll, ih hjunk.2 hvalid]
      rfl
    | .filler (.junk t) => cases hjunk.1

/-- **The tokens that items are read from are those of the items**, if none is out of place. -/
theorem TagItem.eq_tokens {ts : List TagToken} {last : TagToken} (hlast : last.isLast = true)
    (hts : ∀ token ∈ ts, token.text ≠ [] ∧ token.isLast = false) {n : Nat} (hn : n ≤ ts.length)
    (hjunk : ∀ i ∈ readAll n (ts ++ [last]), i.isJunk = false) :
    ts.drop n = (readAll n (ts ++ [last])).flatMap tokens := by
  induction ts generalizing n with
  | nil =>
    obtain rfl : n = 0 := Nat.le_zero.1 hn
    cases last with
    | rightAngle => rfl
    | slashRightAngle => rfl
    | _ => cases hlast
  | cons token ts ih =>
    rw [List.forall_mem_cons] at hts
    cases n with
    | succ n => exact ih hts.2 (Nat.le_of_succ_le_succ hn) hjunk
    | zero =>
      rw [List.drop_zero]
      rw [List.cons_append] at hjunk ⊢
      cases token with
      | rightAngle => cases hts.1.2
      | slashRightAngle => cases hts.1.2
      | name m =>
        -- What the assignment takes stands in front of the token that ends the tag.
        have hend : last.text ≠ [] := by
          cases last with
          | rightAngle => exact List.cons_ne_nil _ _
          | slashRightAngle => exact List.cons_ne_nil _ _
          | _ => cases hlast
        have hne : ∀ token ∈ ts ++ [last], token.text ≠ [] := by
          rw [List.forall_mem_append, List.forall_mem_singleton]
          exact ⟨fun token h => (hts.2 token h).1, hend⟩
        obtain ⟨rest, hsplit, hcount⟩ := Assignment.eq_tokens hne
        rw [readAll, List.forall_mem_cons] at hjunk
        rw [readAll, List.flatMap_cons, tokens]
        generalize Assignment.read (ts ++ [last]) = read at hsplit hcount hjunk ⊢
        have hle : read.2 ≤ ts.length := by
          have hrest : rest ≠ [] := by
            rintro rfl
            have hmem : last ∈ read.1.tokens := by
              rw [List.append_nil] at hsplit
              rw [← hsplit]
              simp
            rw [Assignment.isLast_of_mem_tokens last hmem] at hlast
            cases hlast
          have hlength := congrArg List.length hsplit
          have hpos := List.length_pos_iff.2 hrest
          rw [List.length_append, List.length_append, List.length_singleton, ← hcount] at hlength
          omega
        have htake : ts.take read.2 = read.1.tokens := by
          rw [← List.take_append_of_le_length hle, hsplit, hcount, List.take_left]
        rw [← ih hts.2 hle hjunk.2, List.cons_append, ← htake, List.take_append_drop]
      | space t =>
        rw [readAll, List.forall_mem_cons] at hjunk
        rw [readAll, List.flatMap_cons, ← ih hts.2 (Nat.zero_le _) hjunk.2]
        rfl
      | equals => exact absurd (hjunk _ List.mem_cons_self) (by decide)
      | string q => cases hjunk _ List.mem_cons_self
      | slash => exact absurd (hjunk _ List.mem_cons_self) (by decide)

/-! ## The tokens of start tags -/

/-- The token that ends a start tag, if it ends. -/
def TagEnding.tokens : TagEnding → List TagToken
  | .content => [.rightAngle]
  | .selfClosed => [.slashRightAngle]
  | .missing => []

/-- The tokens of a start tag between its opener and its end. -/
def StartTag.tokens (tag : StartTag) : List TagToken :=
  .name (tag.name.getD []) :: tag.items.flatMap TagItem.tokens

theorem TagEnding.readAll_text {ending : TagEnding} (h : ending ≠ .missing) (rest : Text) :
    TagToken.readAll 0 (ending.text ++ rest) = ending.tokens := by
  cases ending with
  | content => rfl
  | selfClosed => rfl
  | missing => exact absurd rfl h

theorem StartTag.isLast_of_mem_tokens {tag : StartTag} :
    ∀ token ∈ tag.tokens, token.isLast = false :=
  List.forall_mem_cons.2 ⟨rfl, TagItem.isLast_of_mem_tokens⟩

/-- A start tag without errors has the text of its tokens. -/
theorem StartTag.Sound.text_eq {tag : StartTag} (h : tag.Sound) :
    tag.text = tag.opener ++ (tag.tokens.flatMap TagToken.text ++ tag.ending.text) := by
  rw [StartTag.text, tokens, List.flatMap_cons, TagItem.textOfAll_tokens h.items.notJunk,
    TagToken.text, List.append_assoc]

/-- A start tag without errors is put together from its tokens. -/
theorem StartTag.Sound.ofTokens_eq {tag : StartTag} (h : tag.Sound) :
    ofTokens tag.opener (tag.tokens ++ tag.ending.tokens) = tag := by
  obtain ⟨n, hn, -⟩ := h.name
  obtain ⟨opener, name, items, ending⟩ := tag
  obtain rfl : name = some n := hn
  have hitems := TagItem.readAll_tokens h.items.notJunk h.items.valid ending.tokens
  have hrest : TagItem.readAll 0 ending.tokens = [] := by cases ending <;> rfl
  have hending : TagEnding.ofTokens (tokens ⟨opener, some n, items, ending⟩ ++ ending.tokens) =
      ending := by
    rw [TagEnding.ofTokens_append _ _ StartTag.isLast_of_mem_tokens]
    cases ending with
    | content => rfl
    | selfClosed => rfl
    | missing => rfl
  rw [hrest, List.append_nil] at hitems
  have hfields : ofTokens opener (tokens ⟨opener, some n, items, ending⟩ ++ ending.tokens) =
      ⟨opener, some n, TagItem.readAll 0 (items.flatMap TagItem.tokens ++ ending.tokens),
        TagEnding.ofTokens (tokens ⟨opener, some n, items, ending⟩ ++ ending.tokens)⟩ := rfl
  rw [hfields, hitems, hending]

/-- Tokens of which only the last ends the tag, if one of them does. -/
theorem TagToken.exists_last {ts : List TagToken}
    (hlast : ts.Pairwise fun token _ => token.isLast = false) (h : ts.any isLast = true) :
    ∃ init last, ts = init ++ [last] ∧ last.isLast = true ∧ ∀ token ∈ init, token.isLast = false := by
  obtain ⟨last, hmem, htrue⟩ := List.any_eq_true.1 h
  obtain ⟨init, after, rfl⟩ := List.append_of_mem hmem
  rw [List.pairwise_append, List.pairwise_cons] at hlast
  obtain ⟨-, ⟨hend, -⟩, hinit⟩ := hlast
  cases after with
  | nil => exact ⟨init, last, rfl, htrue, fun token ht => hinit token ht last List.mem_cons_self⟩
  | cons next after =>
    rw [hend next List.mem_cons_self] at htrue
    cases htrue

/-- **A start tag without errors has the tokens that it was put together from.** -/
theorem StartTag.Sound.tokens_eq {opener : Text} {ts : List TagToken}
    (h : (ofTokens opener ts).Sound) (hne : ∀ token ∈ ts, token.text ≠ [])
    (hlast : ts.Pairwise fun token _ => token.isLast = false) :
    ts = (ofTokens opener ts).tokens ++ (ofTokens opener ts).ending.tokens := by
  obtain ⟨init, last, rfl, hend, hinit⟩ :=
    TagToken.exists_last hlast (TagToken.ending_ofTokens h.ending)
  obtain ⟨n, hn, -⟩ := h.name
  -- The first token is the name, so it is not the one that ends the tag.
  obtain ⟨rest, rfl⟩ : ∃ rest, init = .name n :: rest := by
    cases init with
    | nil =>
      cases last with
      | rightAngle => cases hn
      | slashRightAngle => cases hn
      | _ => cases hend
    | cons token rest =>
      cases token with
      | name m =>
        cases hn
        exact ⟨rest, rfl⟩
      | _ => cases hn
  rw [List.forall_mem_cons] at hinit
  have hrest : ∀ token ∈ rest, token.text ≠ [] ∧ token.isLast = false := fun token ht =>
    ⟨hne token (by simp [ht]), hinit.2 token ht⟩
  have hitems := TagItem.eq_tokens hend hrest (Nat.zero_le _) h.items.notJunk
  have hending : (ofTokens opener (.name n :: rest ++ [last])).ending.tokens = [last] := by
    have hof : (ofTokens opener (.name n :: rest ++ [last])).ending =
        TagEnding.ofTokens (.name n :: rest ++ [last]) := rfl
    rw [hof, TagEnding.ofTokens_append _ _ (List.forall_mem_cons.2 hinit)]
    cases last with
    | rightAngle => rfl
    | slashRightAngle => rfl
    | _ => cases hend
  rw [hending, tokens]
  rw [List.drop_zero] at hitems
  exact congrArg (fun us => .name n :: (us ++ [last])) hitems

/-- A tag that is read and bears a name has a single `<` in front of its tokens. -/
theorem Piece.eq_ofTokens_of_readNext {rest : Text} {tag : StartTag} {n : Text}
    (h : (readNext .content '<' rest).1 = .start tag) (hn : tag.name = some n)
    (hname : Text.isName n = true) : tag = .ofTokens ['<'] (TagToken.readAll 0 rest) := by
  rw [readNext, if_pos rfl, readMarkup] at h
  split at h
  · cases h
  split at h
  · cases h
    rfl
  split at h
  · cases h
  split at h
  · cases h
  split at h
  · cases h
  split at h
  · next hbroken =>
    -- What follows `<!` here is taken for a name, and it is none.
    exfalso
    obtain ⟨c, tail, rfl, hc⟩ := exists_of_broken hbroken
    cases h
    have hstart : ∃ w, n = c :: w := by
      rcases hc with rfl | rfl
      · exact ⟨_, Option.some.inj hn.symm⟩
      · exact ⟨_, Option.some.inj hn.symm⟩
    obtain ⟨w, rfl⟩ := hstart
    obtain ⟨⟨d, w', hw, hd⟩, -⟩ := Text.isName_spec hname
    cases hw
    rcases hc with rfl | rfl
    · exact absurd hd (by decide +kernel)
    · exact absurd hd (by decide +kernel)
  split at h
  · cases h
  · cases h
    rfl

/-- A start tag without errors that is read was read from its tokens. -/
theorem StartTag.Sound.readAll_tokens {tag : StartTag} (h : tag.Sound) {rest : Text} {qs : List Piece}
    (hread : Piece.readAll .content 0 (tag.text ++ rest) = .start tag :: qs) :
    tag.opener = ['<'] ∧
      TagToken.readAll 0 (tag.tokens.flatMap TagToken.text ++ (tag.ending.text ++ rest)) =
        tag.tokens ++ tag.ending.tokens := by
  obtain ⟨n, hn, hname⟩ := h.name
  obtain ⟨c, word, hword, hnext, -⟩ := Piece.readAll_eq_cons (p := .start tag) hread
  obtain rfl : c = '<' := by
    by_cases hc : c = '<'
    · exact hc
    · rw [Piece.readNext, if_neg hc] at hnext
      cases hnext
  have htag := Piece.eq_ofTokens_of_readNext hnext hn hname
  have hopener : tag.opener = ['<'] := by rw [htag]; rfl
  have htext := h.text_eq
  rw [hopener] at htext
  have hafter : word = tag.tokens.flatMap TagToken.text ++ tag.ending.text :=
    (List.cons.inj (hword.symm.trans htext)).2
  have htokens := StartTag.Sound.tokens_eq (htag ▸ h)
    (TagToken.text_ne_nil_of_mem_readAll (word ++ rest)) (TagToken.pairwise_isLast_readAll _)
  rw [← htag] at htokens
  refine ⟨hopener, ?_⟩
  rw [← List.append_assoc, ← hafter]
  exact htokens

/-- A start tag without errors is read where its tokens are. -/
theorem StartTag.Sound.readAll_text {tag : StartTag} (h : tag.Sound) (hopener : tag.opener = ['<'])
    {rest : Text}
    (hread : TagToken.readAll 0 (tag.tokens.flatMap TagToken.text ++ (tag.ending.text ++ rest)) =
      tag.tokens ++ tag.ending.tokens) :
    Piece.readAll .content 0 (tag.text ++ rest) = .start tag :: Piece.readAll .content 0 rest := by
  obtain ⟨n, hn, hname⟩ := h.name
  have htext : tag.text ++ rest =
      '<' :: (tag.tokens.flatMap TagToken.text ++ (tag.ending.text ++ rest)) := by
    rw [h.text_eq, hopener]
    simp
  have hnamed : tag.tokens.flatMap TagToken.text = n ++ (tag.items.flatMap TagItem.tokens).flatMap
      TagToken.text := by
    rw [tokens, hn]
    rfl
  have hlast : (tag.tokens ++ tag.ending.tokens).any TagToken.isLast = true := by
    rw [List.any_append, Bool.or_eq_true]
    refine .inr ?_
    cases hending : tag.ending with
    | content => rfl
    | selfClosed => rfl
    | missing => exact absurd hending h.ending
  have hnext : Piece.readNext .content '<'
      (tag.tokens.flatMap TagToken.text ++ (tag.ending.text ++ rest)) = (.start tag, .content) := by
    have hstart : Piece.readNext .content '<'
        (tag.tokens.flatMap TagToken.text ++ (tag.ending.text ++ rest)) =
          Piece.readStart 1 ('<' :: (tag.tokens.flatMap TagToken.text ++ (tag.ending.text ++ rest))) := by
      rw [hnamed, List.append_assoc]
      exact Piece.readNext_name hname _
    have hof := h.ofTokens_eq
    rw [hopener] at hof
    rw [hstart, Piece.readStart]
    simp only [List.drop_succ_cons, List.drop_zero, hread, List.take_succ_cons, List.take_zero, hof]
    rw [Piece.modeAfter, if_pos hlast]
  rw [htext]
  exact Piece.readAll_of_readNext hnext htext.symm

end ProjectFile.Markup
