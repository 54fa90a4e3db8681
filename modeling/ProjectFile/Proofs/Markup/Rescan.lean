import ProjectFile.Proofs.Markup.Scan
import ProjectFile.Proofs.Markup.Written
import ProjectFile.Proofs.Text.Names

/-!
Scanning what was written.

The pieces of a written tree are known beforehand (`Written.pieces`), and the scan finds exactly
them, whatever follows the tree (`Piece.readAll_print`). From the smallest reader up:

1. `Text.lengthThrough_append`: the first terminator after a body that has none is the one that
   was written, even where the body ends like the start of one.
2. `TagToken.readAll_attributes`: the tokens of written attributes, the other quotation mark and
   `>` in their values included.
3. `Piece.readAll_opening`, `Piece.readAll_endTag`, `Piece.readAll_run`: whole tags and runs.
-/

namespace ProjectFile

namespace Text

/-- What is in front of two texts is in front of the first, or is the first and some of the second. -/
theorem prefix_of_append {s t u : Text} (h : u <+: s ++ t) : u <+: s ∨ ∃ v, v <+: t ∧ s ++ v = u := by
  obtain hin | ⟨v, hv⟩ := List.prefix_or_prefix_of_prefix h (List.prefix_append s t)
  · exact .inl hin
  · subst hv
    exact .inr ⟨v, (List.prefix_append_right_inj s).1 h, rfl⟩

/-- A terminator whose last character comes only once in it does not begin inside a text that does
not hold it, not even where the text ends like the start of one. -/
theorem not_prefix_of_not_infix {init body : Text} {last : Char} (hlast : last ∉ init)
    (hne : body ≠ []) (hbody : ¬ init ++ [last] <:+: body) (rest : Text) :
    ¬ init ++ [last] <+: body ++ (init ++ [last] ++ rest) := by
  intro hprefix
  obtain hin | ⟨s, hstop, hs⟩ := prefix_of_append hprefix
  · exact hbody hin.isInfix
  · -- Then it ends behind the body, in `s`, which is also the start of the terminator there.
    have hlength : body.length + s.length = init.length + 1 := by
      simpa using congrArg List.length hs
    have hpos := List.length_pos_iff.2 hne
    have hinit : s <+: init := by
      refine List.prefix_of_prefix_length_le hstop ?_ (by omega)
      exact (List.prefix_append init [last]).trans (List.prefix_append _ rest)
    cases hend : s.getLast? with
    | none =>
      rw [List.getLast?_eq_none_iff.1 hend, List.append_nil] at hs
      exact hbody ⟨[], [], by simp [hs]⟩
    | some d =>
      have hd : (body ++ s).getLast? = some d := by
        rw [List.getLast?_append, hend, Option.some_or]
      rw [hs, List.getLast?_concat, Option.some.injEq] at hd
      exact hlast (hd ▸ hinit.subset (List.mem_of_getLast? hend))

/-- The first terminator after a text that does not hold it is the one right behind the text. -/
theorem lengthThrough_append {init body : Text} {last : Char} (hlast : last ∉ init)
    (hbody : ¬ init ++ [last] <:+: body) (rest : Text) :
    lengthThrough (init ++ [last]) (body ++ (init ++ [last] ++ rest)) =
      body.length + (init ++ [last]).length := by
  induction body with
  | nil =>
    have hprefix : (init ++ [last]).isPrefixOf (init ++ [last] ++ rest) = true :=
      List.isPrefixOf_iff_prefix.2 (List.prefix_append _ _)
    rw [List.nil_append, List.length_nil, Nat.zero_add]
    cases hstop : init ++ [last] ++ rest with
    | nil => simp at hstop
    | cons c t => rw [lengthThrough, ← hstop, if_pos hprefix]
  | cons c body ih =>
    have hnot := not_prefix_of_not_infix hlast (List.cons_ne_nil c body) hbody rest
    have htail : ¬ init ++ [last] <:+: body := fun h => hbody (h.trans (List.suffix_cons c body).isInfix)
    rw [List.cons_append, lengthThrough, if_neg, ih htail, List.length_cons]
    · omega
    · rwa [List.isPrefixOf_iff_prefix]

end Text

namespace Markup

/-! ## The tokens of written tags -/

namespace TagToken

theorem isNameChar_of_code {c : Char} (h : Text.IsNameCode c.toNat) : isNameChar c = true := by
  have hne (d : Char) (hd : ¬ Text.IsNameCode d.toNat) : c ≠ d := by
    intro h
    subst h
    exact hd h
  simp [isNameChar, Text.isMarkupSpace, hne ' ' (by decide), hne '\t' (by decide),
    hne '\r' (by decide), hne '\n' (by decide), hne '<' (by decide), hne '>' (by decide),
    hne '/' (by decide), hne '=' (by decide), hne '"' (by decide), hne '\'' (by decide)]

/-- A token that is read and does not end the tag is followed by those of the text behind it. -/
theorem readAll_of_read {token : TagToken} {c : Char} {rest after : Text} (hc : c ≠ '<')
    (hread : read c rest = token) (htext : c :: rest = token.text ++ after)
    (hlast : token.isLast = false) : readAll 0 (c :: rest) = token :: readAll 0 after := by
  subst hread
  rw [readAll_cons hc htext, hlast]
  rfl

theorem readAll_name {n rest : Text} (hn : Text.isName n = true)
    (hrest : ∀ c ∈ rest.head?, isNameChar c = false) :
    readAll 0 (n ++ rest) = .name n :: readAll 0 rest := by
  obtain ⟨⟨c, tail, rfl, -⟩, hcodes⟩ := Text.isName_spec hn
  -- No character of a name is one that another token begins with.
  have hchars : ∀ d ∈ c :: tail, isNameChar d = true := fun d hd => isNameChar_of_code (hcodes d hd)
  rw [List.forall_mem_cons] at hchars
  have hread : read c (tail ++ rest) = .name (c :: tail) := by
    have hfirst := hchars.1
    simp only [isNameChar, Bool.not_eq_true', Bool.or_eq_false_iff, beq_eq_false_iff_ne] at hfirst
    rw [read, Text.lengthWhile_append hchars.2 hrest, List.take_left]
    simp [hfirst]
  refine readAll_of_read ?_ hread rfl rfl
  intro h
  subst h
  exact absurd hchars.1 (by decide)

/-- Space is read up to the next character that is none. -/
theorem readAll_space {w rest : Text} (hne : w ≠ []) (hw : Text.isMarkupBlank w = true)
    (hrest : ∀ c ∈ rest.head?, Text.isMarkupSpace c = false) :
    readAll 0 (w ++ rest) = .space w :: readAll 0 rest := by
  obtain ⟨c, word, rfl⟩ := List.exists_cons_of_ne_nil hne
  rw [Text.isMarkupBlank, List.all_eq_true, List.forall_mem_cons] at hw
  obtain ⟨hc, hword⟩ := hw
  have hread : read c (word ++ rest) = .space (c :: word) := by
    have hlength := Text.lengthWhile_append hword hrest
    simp only [Text.isMarkupSpace, Bool.or_eq_true, beq_iff_eq] at hc
    rcases hc with ((rfl | rfl) | rfl) | rfl
    all_goals
      unfold read
      rw [hlength, List.take_left]
      rfl
  refine readAll_of_read ?_ hread rfl rfl
  rintro rfl
  cases hc

theorem readAll_equals (rest : Text) : readAll 0 ('=' :: rest) = .equals :: readAll 0 rest :=
  readAll_of_read (by decide) rfl rfl rfl

theorem readAll_string (quote : QuoteMark) {value : Text} (hangle : '<' ∉ value)
    (hquote : quote.char ∉ value) (rest : Text) :
    readAll 0 (quote.char :: (value ++ quote.char :: rest)) =
      .string ⟨quote.char, value, true⟩ :: readAll 0 rest := by
  have hlength : Text.lengthWhile (fun c => c != quote.char && c != '<')
      (value ++ quote.char :: rest) = value.length := by
    refine Text.lengthWhile_append (fun c hc => ?_) (by simp)
    have hne : c ≠ quote.char := fun h => hquote (h ▸ hc)
    have hne' : c ≠ '<' := fun h => hangle (h ▸ hc)
    simp [hne, hne']
  have hstring : readString quote.char (value ++ quote.char :: rest) = ⟨quote.char, value, true⟩ := by
    rw [readString, hlength, List.take_left, List.drop_left]
    simp
  have hread : read quote.char (value ++ quote.char :: rest) = .string ⟨quote.char, value, true⟩ := by
    rw [← hstring]
    cases quote <;> rfl
  refine readAll_of_read ?_ hread (by simp [text, Quoted.text]) rfl
  cases quote <;> decide

theorem readAll_rightAngle (rest : Text) : readAll 0 ('>' :: rest) = [.rightAngle] := rfl

end TagToken

/-- The tokens of a written attribute. -/
def WrittenAttribute.tokens (a : WrittenAttribute) : List TagToken :=
  [.space [' '], .name a.name, .equals, .string ⟨a.quote.char, a.value, true⟩]

/-- The tokens of an attribute, without the space in front, are read whatever comes after them. -/
theorem TagToken.readAll_assignment {a : WrittenAttribute} (h : a.WellFormed) (rest : Text) :
    readAll 0 (a.name ++ '=' :: a.quote.char :: (a.value ++ a.quote.char :: rest)) =
      .name a.name :: .equals :: .string ⟨a.quote.char, a.value, true⟩ :: readAll 0 rest := by
  rw [readAll_name h.name (by simp [isNameChar]), readAll_equals,
    readAll_string a.quote h.noAngle h.noQuote]

/-- A name does not begin with space. -/
theorem TagToken.head?_name {n : Text} (hn : Text.isName n = true) (rest : Text) :
    ∀ c ∈ (n ++ rest).head?, Text.isMarkupSpace c = false := by
  obtain ⟨⟨d, tail, rfl, -⟩, hcodes⟩ := Text.isName_spec hn
  intro c hc
  cases hc
  have hchar := isNameChar_of_code (hcodes d List.mem_cons_self)
  simp only [isNameChar, Bool.not_eq_true', Bool.or_eq_false_iff] at hchar
  exact hchar.1.1.1.1.1.1

theorem TagToken.readAll_attribute {a : WrittenAttribute} (h : a.WellFormed) (rest : Text) :
    readAll 0 (a.print ++ rest) = a.tokens ++ readAll 0 rest := by
  have hspace : Text.isMarkupBlank [' '] = true := rfl
  have hprint : a.print ++ rest =
      [' '] ++ (a.name ++ '=' :: a.quote.char :: (a.value ++ a.quote.char :: rest)) := by
    simp [WrittenAttribute.print]
  rw [hprint, readAll_space (List.cons_ne_nil _ _) hspace (head?_name h.name _),
    readAll_assignment h]
  rfl

/-- The tokens of written attributes are read whatever comes after them. -/
theorem TagToken.readAll_attributes {attributes : List WrittenAttribute}
    (h : ∀ a ∈ attributes, a.WellFormed) (rest : Text) :
    readAll 0 (attributes.flatMap WrittenAttribute.print ++ rest) =
      attributes.flatMap WrittenAttribute.tokens ++ readAll 0 rest := by
  induction attributes with
  | nil => rfl
  | cons a attributes ih =>
    rw [List.forall_mem_cons] at h
    rw [List.flatMap_cons, List.flatMap_cons, List.append_assoc, readAll_attribute h.1, ih h.2,
      List.append_assoc]

/-! ## Written tags -/

/-- The attribute that a written one is read as. -/
def WrittenAttribute.attr (a : WrittenAttribute) : Attribute :=
  ⟨a.name, .value [] [] ⟨a.quote.char, a.value, true⟩⟩

/-- The items of a start tag that a written attribute is read as. -/
def WrittenAttribute.items (a : WrittenAttribute) : List TagItem :=
  [.filler (.space [' ']), .attribute a.attr]

/-- The start tag that a written one is read as. -/
def Written.startTag (name : Text) (attributes : List WrittenAttribute) (ending : TagEnding) :
    StartTag :=
  ⟨['<'], some name, attributes.flatMap WrittenAttribute.items, ending⟩

/-- The end tag that a written one is read as. -/
def Written.endTag (name : Text) : EndTag := ⟨some name, [], true⟩

theorem TagItem.readAll_attributes (attributes : List WrittenAttribute) {last : TagToken}
    (hlast : last.isLast = true) :
    readAll 0 (attributes.flatMap WrittenAttribute.tokens ++ [last]) =
      attributes.flatMap WrittenAttribute.items := by
  induction attributes with
  | nil =>
    cases last with
    | rightAngle => rfl
    | slashRightAngle => rfl
    | _ => cases hlast
  | cons a attributes ih =>
    rw [List.flatMap_cons, List.flatMap_cons, ← ih]
    rfl

theorem StartTag.ofTokens_written (name : Text) (attributes : List WrittenAttribute)
    {last : TagToken} (hlast : last.isLast = true) :
    ofTokens ['<'] (.name name :: (attributes.flatMap WrittenAttribute.tokens ++ [last])) =
      Written.startTag name attributes (TagEnding.ofTokens [last]) := by
  have hitems := TagItem.readAll_attributes attributes hlast
  have hending : TagEnding.ofTokens
      (.name name :: (attributes.flatMap WrittenAttribute.tokens ++ [last])) =
        TagEnding.ofTokens [last] := by
    rw [TagEnding.ofTokens, ← List.cons_append, List.getLast?_concat]
    rfl
  rw [Written.startTag, ← hitems, ← hending]
  rfl

theorem Written.text_startTag (name : Text) (attributes : List WrittenAttribute)
    (ending : TagEnding) :
    (startTag name attributes ending).text = printOpening name attributes ++ ending.text := by
  have hitem (a : WrittenAttribute) : a.items.flatMap TagItem.text = a.print := by
    simp [WrittenAttribute.items, WrittenAttribute.attr, WrittenAttribute.print, TagItem.text,
      Filler.text, Attribute.text, Assignment.text, Quoted.text]
  have hitems : (attributes.flatMap WrittenAttribute.items).flatMap TagItem.text =
      attributes.flatMap WrittenAttribute.print := by
    rw [List.flatMap_assoc]
    simp only [hitem]
  simp [StartTag.text, startTag, printOpening, hitems]

namespace Piece

open Written (startTag endTag printOpening)

theorem head?_attributes {attributes : List WrittenAttribute} {rest : Text}
    (hrest : ∀ c ∈ rest.head?, TagToken.isNameChar c = false) :
    ∀ c ∈ (attributes.flatMap WrittenAttribute.print ++ rest).head?,
      TagToken.isNameChar c = false := by
  cases attributes with
  | nil => exact hrest
  | cons a attributes =>
    intro c hc
    have hspace : ' ' = c := by simpa [WrittenAttribute.print] using hc
    rw [← hspace]
    decide

/-- A piece that is read before the reader is outside tags again is followed by those behind it. -/
theorem readAll_of_readNext {p : Piece} {c : Char} {rest after : Text}
    (hnext : readNext .content c rest = (p, .content)) (htext : c :: rest = p.text ++ after) :
    readAll .content 0 (c :: rest) = p :: readAll .content 0 after := by
  have hsplit : c :: rest = (readNext .content c rest).1.text ++ after := by
    rw [hnext]
    exact htext
  rw [readAll_cons .content hsplit, hnext]

/-- Where a name follows the `<`, a tag is read. -/
theorem readNext_name {name : Text} (hname : Text.isName name = true) (rest : Text) :
    readNext .content '<' (name ++ rest) = readStart 1 ('<' :: (name ++ rest)) := by
  obtain ⟨⟨c, tail, rfl, hfirst⟩, -⟩ := Text.isName_spec hname
  have hne (d : Char) (h₁ : d ≠ '_') (h₂ : d ≠ ':') (h₃ : ¬ Text.IsLetterCode d.toNat) :
      (d == c) = false := by
    rw [beq_eq_false_iff_ne]
    intro h
    subst h
    rcases hfirst with h | h | h
    · exact h₁ h
    · exact h₂ h
    · exact h₃ h
  simp [readNext, readMarkup, List.isPrefixOf, hne '/' (by decide) (by decide) (by decide),
    hne '!' (by decide) (by decide) (by decide), hne '?' (by decide) (by decide) (by decide)]

/-- A written start tag is read as itself, whatever comes after it. -/
theorem readAll_opening {name : Text} {attributes : List WrittenAttribute}
    (h : Written.OpeningWellFormed name attributes) {ending : TagEnding} (hending : ending ≠ .missing)
    (rest : Text) :
    readAll .content 0 (printOpening name attributes ++ (ending.text ++ rest)) =
      .start (startTag name attributes ending) :: readAll .content 0 rest := by
  -- Both endings are one token, and neither can be taken for more of the name.
  obtain ⟨last, hlast, htokens, hof, hhead⟩ : ∃ last : TagToken, last.isLast = true ∧
      TagToken.readAll 0 (ending.text ++ rest) = [last] ∧ TagEnding.ofTokens [last] = ending ∧
        ∀ c ∈ (ending.text ++ rest).head?, TagToken.isNameChar c = false := by
    cases ending with
    | content => exact ⟨.rightAngle, rfl, rfl, rfl, by simp [TagEnding.text, TagToken.isNameChar]⟩
    | selfClosed =>
      exact ⟨.slashRightAngle, rfl, rfl, rfl, by simp [TagEnding.text, TagToken.isNameChar]⟩
    | missing => exact absurd rfl hending
  have hread : TagToken.readAll 0
      (name ++ (attributes.flatMap WrittenAttribute.print ++ (ending.text ++ rest))) =
        .name name :: (attributes.flatMap WrittenAttribute.tokens ++ [last]) := by
    rw [TagToken.readAll_name h.named (head?_attributes hhead),
      TagToken.readAll_attributes h.each, htokens]
  have hnext : readNext .content '<'
      (name ++ (attributes.flatMap WrittenAttribute.print ++ (ending.text ++ rest))) =
        (.start (startTag name attributes ending), .content) := by
    rw [readNext_name h.named, readStart]
    simp only [List.drop_succ_cons, List.drop_zero, hread]
    rw [List.take_succ_cons, List.take_zero, StartTag.ofTokens_written name attributes hlast, hof]
    simp [modeAfter, hlast]
  have hprint : printOpening name attributes ++ (ending.text ++ rest) =
      '<' :: (name ++ (attributes.flatMap WrittenAttribute.print ++ (ending.text ++ rest))) := by
    simp [printOpening]
  rw [hprint]
  apply readAll_of_readNext hnext
  rw [text, Written.text_startTag, ← hprint, List.append_assoc]

/-- A written end tag is read as itself. -/
theorem readAll_endTag {name : Text} (hname : Text.isName name = true) (rest : Text) :
    readAll .content 0 ('<' :: '/' :: (name ++ '>' :: rest)) =
      .stop (endTag name) :: readAll .content 0 rest := by
  have hread : TagToken.readAll 0 (name ++ '>' :: rest) = [.name name, .rightAngle] := by
    rw [TagToken.readAll_name hname (by simp [TagToken.isNameChar]), TagToken.readAll_rightAngle]
  have hnext : readNext .content '<' ('/' :: (name ++ '>' :: rest)) =
      (.stop (endTag name), .content) := by
    -- The two signs decide the kind of the piece before anything is known of the name.
    have hstop : readNext .content '<' ('/' :: (name ++ '>' :: rest)) =
        readStop ('<' :: '/' :: (name ++ '>' :: rest)) := rfl
    rw [hstop, readStop]
    simp only [List.drop_succ_cons, List.drop_zero, hread]
    rfl
  apply readAll_of_readNext hnext
  simp [text, EndTag.text, endTag, EndTag.opener]

/-- A run with a terminator is read up to the terminator that was written. -/
theorem readAll_run {kind : RunKind} {opener init body : Text} {last : Char} (hlast : last ∉ init)
    (hbody : ¬ init ++ [last] <:+: body) {rest : Text}
    (hnext : ∀ t, readNext .content '<' (opener ++ t) =
      (readRun kind (opener.length + 1) (init ++ [last]) ('<' :: (opener ++ t)), .content)) :
    readAll .content 0 ('<' :: (opener ++ (body ++ (init ++ [last] ++ rest)))) =
      .run kind ('<' :: (opener ++ (body ++ (init ++ [last])))) :: readAll .content 0 rest := by
  have hlength := Text.lengthThrough_append hlast hbody rest
  refine readAll_of_readNext ((hnext _).trans ?_) (by simp [text])
  rw [readRun, List.drop_succ_cons, List.drop_left, hlength]
  have hsplit : '<' :: (opener ++ (body ++ (init ++ [last] ++ rest))) =
      '<' :: (opener ++ (body ++ (init ++ [last]))) ++ rest := by simp
  have hcount : opener.length + 1 + (body.length + (init ++ [last]).length) =
      ('<' :: (opener ++ (body ++ (init ++ [last])))).length := by
    simp
    omega
  rw [hsplit, hcount, List.take_left]

/-- A text is read up to the next `<`. -/
theorem readAll_text {t rest : Text} (hne : t ≠ []) (hangle : '<' ∉ t) (hrest : rest.head? = some '<') :
    readAll .content 0 (t ++ rest) =
      .run (if Text.isMarkupBlank t then .blank else .text) t :: readAll .content 0 rest := by
  have hlength : Text.lengthWhile (fun c => c != '<') (t ++ rest) = t.length := by
    refine Text.lengthWhile_append (fun c hc => ?_) (fun c hc => ?_)
    · have hc' : c ≠ '<' := fun h => hangle (h ▸ hc)
      simpa using hc'
    · rw [hrest] at hc
      cases hc
      rfl
  have hdata : readData (t ++ rest) = .run (if Text.isMarkupBlank t then .blank else .text) t := by
    rw [readData, hlength, List.take_left]
  cases t with
  | nil => exact absurd rfl hne
  | cons c t =>
    have hc : c ≠ '<' := fun h => hangle (h ▸ List.mem_cons_self)
    rw [List.cons_append] at hdata ⊢
    refine readAll_of_readNext ?_ (by simp [text])
    rw [readNext, if_neg hc, hdata]

end Piece

/-! ## The pieces of written trees -/

namespace Written

mutual

/-- The pieces that a written tree is read as. -/
def pieces : Written → List Piece
  | .empty name attributes => [.start (startTag name attributes .selfClosed)]
  | .element name attributes content =>
    .start (startTag name attributes .content) :: (piecesOfAll content ++ [.stop (endTag name)])
  | .text t => [.run (if Text.isMarkupBlank t then .blank else .text) t]
  | .comment body => [.run .comment (Written.comment body).print]
  | .cdata body => [.run .cdata (Written.cdata body).print]

/-- The pieces that written trees are read as. -/
def piecesOfAll : List Written → List Piece
  | [] => []
  | w :: ws => w.pieces ++ piecesOfAll ws

end

/-- What is not a text is written with a `<` in front. -/
theorem head?_print {w : Written} (h : w.isText = false) (rest : Text) :
    (w.print ++ rest).head? = some '<' := by
  cases w with
  | text t => cases h
  | _ => rfl

theorem head?_printAll {ws : List Written} {rest : Text} (hws : ∀ w ∈ ws.head?, w.isText = false)
    (hrest : rest.head? = some '<') : (printAll ws ++ rest).head? = some '<' := by
  cases ws with
  | nil => exact hrest
  | cons w ws =>
    rw [printAll, List.append_assoc]
    exact head?_print (hws w rfl) _

end Written

namespace Piece

open Written (print printAll pieces piecesOfAll WellFormedAll)

theorem readAll_empty {name : Text} {attributes : List WrittenAttribute} {rest : Text}
    (h : (Written.empty name attributes).WellFormed) :
    readAll .content 0 ((Written.empty name attributes).print ++ rest) =
      (Written.empty name attributes).pieces ++ readAll .content 0 rest := by
  have hending : TagEnding.selfClosed ≠ .missing := nofun
  rw [Written.WellFormed] at h
  rw [print, pieces, List.append_assoc]
  exact readAll_opening h hending rest

/-- An element is read as itself if its content is. -/
theorem readAll_element {name : Text} {attributes : List WrittenAttribute} {content : List Written}
    {rest : Text} (h : Written.OpeningWellFormed name attributes)
    (hcontent : ∀ next, next.head? = some '<' →
      readAll .content 0 (printAll content ++ next) = piecesOfAll content ++ readAll .content 0 next) :
    readAll .content 0 ((Written.element name attributes content).print ++ rest) =
      (Written.element name attributes content).pieces ++ readAll .content 0 rest := by
  have hending : TagEnding.content ≠ .missing := nofun
  -- What follows the content is the end tag, which begins with a `<` as the content asks for.
  have hopening := readAll_opening h hending
    (printAll content ++ '<' :: '/' :: (name ++ '>' :: rest))
  rw [hcontent _ rfl, readAll_endTag h.named] at hopening
  simpa [print, pieces, TagEnding.text] using hopening

theorem readAll_comment {body rest : Text} (h : (Written.comment body).WellFormed) :
    readAll .content 0 ((Written.comment body).print ++ rest) =
      (Written.comment body).pieces ++ readAll .content 0 rest := by
  have hlast : '>' ∉ ['-', '-'] := by decide
  have hcomment := @readAll_run .comment ['!', '-', '-'] _ _ _ hlast h.2 rest fun t => rfl
  simpa [pieces, print, commentOpener] using hcomment

theorem readAll_cdata {body rest : Text} (h : (Written.cdata body).WellFormed) :
    readAll .content 0 ((Written.cdata body).print ++ rest) =
      (Written.cdata body).pieces ++ readAll .content 0 rest := by
  have hlast : '>' ∉ [']', ']'] := by decide
  have hcdata := @readAll_run .cdata ['!', '[', 'C', 'D', 'A', 'T', 'A', '['] _ _ _ hlast h.2 rest
    fun t => rfl
  simpa [pieces, print, sectionOpener] using hcdata

mutual

/-- **A written tree is read as its pieces, whatever comes after it.** -/
theorem readAll_print : ∀ w : Written, w.WellFormed → ∀ rest : Text,
    (w.isText = true → rest.head? = some '<') →
    readAll .content 0 (w.print ++ rest) = w.pieces ++ readAll .content 0 rest
  | .empty _ _, h, _, _ => readAll_empty h
  | .element _ _ content, h, _, _ => readAll_element h.1 (readAll_printAll content h.2)
  | .text _, h, _, hrest => readAll_text h.2.1 h.2.2 (hrest rfl)
  | .comment _, h, _, _ => readAll_comment h
  | .cdata _, h, _, _ => readAll_cdata h

theorem readAll_printAll : ∀ ws : List Written, WellFormedAll ws → ∀ rest : Text,
    rest.head? = some '<' →
    readAll .content 0 (printAll ws ++ rest) = piecesOfAll ws ++ readAll .content 0 rest
  | [], _, _, _ => rfl
  | w :: ws, h, rest, hrest => by
    rw [printAll, piecesOfAll, List.append_assoc, List.append_assoc,
      readAll_print w h.1 _ fun htext => Written.head?_printAll (h.2.1 htext) hrest,
      readAll_printAll ws h.2.2 rest hrest]

end

end Piece

end Markup

end ProjectFile
