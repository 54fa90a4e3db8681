import ProjectFile.Proofs.Markup.Rescan

/-!
How far the scan looks ahead.

A piece depends on its own text and on little behind it, so the pieces in front of a place stay what
they are when the text behind the place is another one. From the smallest reader up:

1. `TagToken.read_append`: a token depends on its text and the one character after it.
2. `TagToken.readAll_append`: the tokens of a tag that ends depend on nothing behind the tag.
3. `Text.lengthThrough_stable`: a run that stops before the end of the text ends with its
   terminator, and depends on nothing behind it.
4. `Piece.readAll_append`: pieces that are read in front of some text are read in front of another.
   Character data alone minds what follows: it has to end where it did.
-/

namespace ProjectFile

namespace Text

/-- A terminator that is found before the end of the text is found there whatever comes after. -/
theorem lengthThrough_stable {stop s rest : Text} (hstop : stop ≠ []) (hrest : rest ≠ [])
    (h : lengthThrough stop (s ++ rest) = s.length) :
    stop <:+ s ∧ ∀ rest' : Text, lengthThrough stop (s ++ rest') = s.length := by
  induction s with
  | nil =>
    cases rest with
    | nil => exact absurd rfl hrest
    | cons c rest =>
      rw [List.nil_append, lengthThrough] at h
      split at h
      · exact absurd (List.length_eq_zero_iff.1 h) hstop
      · cases h
  | cons c s ih =>
    rw [List.cons_append, lengthThrough] at h
    split at h
    · next hprefix =>
      -- The terminator begins here, so it is all of `c :: s`.
      rw [List.isPrefixOf_iff_prefix, ← List.cons_append] at hprefix
      have heq : stop = c :: s :=
        (List.prefix_of_prefix_length_le hprefix (List.prefix_append _ _) (Nat.le_of_eq h)).eq_of_length h
      refine ⟨heq ▸ List.suffix_refl _, fun rest' => ?_⟩
      have hprefix' : stop.isPrefixOf (c :: (s ++ rest')) = true := by
        rw [List.isPrefixOf_iff_prefix, heq]
        exact List.prefix_append (c :: s) rest'
      rw [List.cons_append, lengthThrough, if_pos hprefix', heq]
    · next hnot =>
      obtain ⟨hsuffix, hall⟩ := ih (Nat.succ.inj h)
      refine ⟨hsuffix.trans (List.suffix_cons c s), fun rest' => ?_⟩
      have hshort : stop.length ≤ (c :: s).length :=
        Nat.le_succ_of_le hsuffix.length_le
      have hnot' : ¬ stop.isPrefixOf (c :: (s ++ rest')) = true := by
        intro hprefix
        rw [List.isPrefixOf_iff_prefix, ← List.cons_append] at hprefix
        apply hnot
        rw [List.isPrefixOf_iff_prefix, ← List.cons_append]
        exact (List.prefix_of_prefix_length_le hprefix (List.prefix_append _ _) hshort).trans
          (List.prefix_append _ _)
      rw [List.cons_append, lengthThrough, if_neg hnot', hall rest', List.length_cons]

/-- What begins a text that has a `>` in it, and has none itself, is decided before the `>`. -/
theorem isPrefixOf_stable {w s : Text} (hs : '>' ∈ s) (hw : '>' ∉ w) (rest rest' : Text) :
    w.isPrefixOf (s ++ rest) = w.isPrefixOf (s ++ rest') := by
  have hfront (after : Text) : w.isPrefixOf (s ++ after) = true ↔ w <+: s := by
    rw [List.isPrefixOf_iff_prefix]
    constructor
    · intro h
      obtain hin | hout := List.prefix_or_prefix_of_prefix h (List.prefix_append s after)
      · exact hin
      · exact absurd (hout.subset hs) hw
    · exact fun h => h.trans (List.prefix_append s after)
  rw [Bool.eq_iff_iff, hfront, hfront]

end Text

namespace Markup

/-! ## Tokens -/

namespace TagToken

/-- A string depends on its text and the one character after it. -/
theorem readString_append {quote : Char} {word rest rest' : Text}
    (hword : (readString quote (word ++ rest)).text = quote :: word)
    (hhead : rest'.head? = rest.head?) :
    readString quote (word ++ rest') = readString quote (word ++ rest) := by
  let inside : Char → Bool := fun c => c != quote && c != '<'
  obtain ⟨body, hbody, hclosed⟩ : ∃ body, body.length = Text.lengthWhile inside (word ++ rest) ∧
      word = body ++ if ((word ++ rest).drop body.length).head? == some quote then [quote] else [] := by
    have htext : (word ++ rest).take (Text.lengthWhile inside (word ++ rest)) ++
        (if ((word ++ rest).drop (Text.lengthWhile inside (word ++ rest))).head? == some quote
          then [quote] else []) = word := List.cons.inj hword |>.2
    refine ⟨(word ++ rest).take (Text.lengthWhile inside (word ++ rest)), ?_, ?_⟩
    · rw [Text.take_lengthWhile, ← Text.lengthWhile_eq]
    · rw [Text.take_lengthWhile, ← Text.lengthWhile_eq, ← Text.take_lengthWhile]
      exact htext.symm
  -- Behind the body stands the same character in both texts: the closing quote, or what follows.
  obtain ⟨tail, tail', hsplit, hsplit', htail⟩ : ∃ tail tail', word ++ rest = body ++ tail ∧
      word ++ rest' = body ++ tail' ∧ tail'.head? = tail.head? := by
    split at hclosed
    · refine ⟨quote :: rest, quote :: rest', ?_, ?_, rfl⟩ <;> rw [hclosed] <;> simp
    · refine ⟨rest, rest', ?_, ?_, hhead⟩ <;> rw [hclosed] <;> simp
  have hlength : Text.lengthWhile inside (body ++ tail) = body.length := by rw [← hsplit, ← hbody]
  have hlength' := Text.lengthWhile_stable hlength htail
  simp only [readString, hsplit, hsplit']
  simp only [inside] at hlength hlength'
  rw [hlength, hlength', List.take_left, List.take_left, List.drop_left, List.drop_left, htail]

/-- A run of characters of one class depends on itself and the one character after it. -/
theorem take_lengthWhile_append {p : Char → Bool} {word rest rest' : Text}
    (hword : (word ++ rest).take (Text.lengthWhile p (word ++ rest)) = word)
    (hhead : rest'.head? = rest.head?) :
    (word ++ rest').take (Text.lengthWhile p (word ++ rest')) = word := by
  have hlength : Text.lengthWhile p (word ++ rest) = word.length := by
    rw [Text.take_lengthWhile] at hword
    rw [Text.lengthWhile_eq, hword]
  rw [Text.lengthWhile_stable hlength hhead, List.take_left]

/-- **A token depends on its text and the one character after it.** -/
theorem read_append {c : Char} {word rest rest' : Text}
    (hword : (read c (word ++ rest)).text = c :: word) (hhead : rest'.head? = rest.head?) :
    read c (word ++ rest') = read c (word ++ rest) := by
  have hnext : (word ++ rest').head? = (word ++ rest).head? := by
    rw [List.head?_append, List.head?_append, hhead]
  unfold read at hword ⊢
  rw [hnext]
  by_cases hangle : c = '>'
  · simp only [if_pos hangle]
  by_cases hequals : c = '='
  · simp only [if_neg hangle, if_pos hequals]
  by_cases hslash : c = '/'
  · simp only [if_neg hangle, if_neg hequals, if_pos hslash]
  simp only [if_neg hangle, if_neg hequals, if_neg hslash] at hword ⊢
  by_cases hquote : c = '"' ∨ c = '\''
  · simp only [if_pos hquote] at hword ⊢
    rw [readString_append hword hhead]
  simp only [if_neg hquote] at hword ⊢
  split at hword
  · next hspace =>
    have htake := (List.cons.inj hword).2
    rw [if_pos hspace, if_pos hspace, take_lengthWhile_append htake hhead, htake]
  · next hname =>
    have htake := (List.cons.inj hword).2
    rw [if_neg hname, if_neg hname, take_lengthWhile_append htake hhead, htake]

/-- The token that ends a tag is read whatever comes after it. -/
theorem readAll_last {token : TagToken} (hlast : token.isLast = true) (rest : Text) :
    readAll 0 (token.text ++ rest) = [token] := by
  cases token with
  | rightAngle => rfl
  | slashRightAngle => rfl
  | _ => cases hlast

/-- **The tokens of a tag that ends depend on nothing behind the tag.** -/
theorem readAll_append {t : Text} (hlast : (readAll 0 t).any isLast = true) (rest : Text) :
    readAll 0 ((readAll 0 t).flatMap text ++ rest) = readAll 0 t := by
  induction hlen : t.length using Nat.strongRecOn generalizing t with
  | ind n ih =>
    cases t with
    | nil => cases hlast
    | cons c word =>
      by_cases hc : c = '<'
      · rw [readAll, if_pos hc] at hlast
        cases hlast
      obtain ⟨after, hafter⟩ := text_read_prefix c word
      have hne := text_read_ne_nil c word
      rw [readAll_cons hc hafter.symm] at hlast ⊢
      split at hlast
      · next hend =>
        rw [if_pos hend, List.flatMap_singleton]
        exact readAll_last hend rest
      · next hgoes =>
        rw [if_neg hgoes, List.flatMap_cons, List.append_assoc]
        rw [List.any_cons, Bool.or_eq_true] at hlast
        have hmore := hlast.resolve_left hgoes
        have hshort : after.length < n := by
          have hpos := List.length_pos_iff.2 hne
          rw [← hlen, ← hafter, List.length_append]
          omega
        have hrest := ih after.length hshort hmore rfl
        -- The tag goes on behind the token, so the character after it is one of the tag's own.
        have hhead : ((readAll 0 after).flatMap text ++ rest).head? = after.head? := by
          obtain ⟨behind, hbehind⟩ := flatMap_text_readAll_prefix after
          obtain ⟨token, htoken, -⟩ := List.any_eq_true.1 hmore
          cases hfilled : (readAll 0 after).flatMap text with
          | nil =>
            have hnil := List.flatMap_eq_nil_iff.1 hfilled token htoken
            exact absurd hnil (text_ne_nil_of_mem_readAll after token htoken)
          | cons d front =>
            rw [hfilled] at hbehind
            rw [← hbehind]
            rfl
        cases hword : (read c word).text with
        | nil => exact absurd hword hne
        | cons d front =>
          rw [hword, List.cons_append, List.cons.injEq] at hafter
          obtain ⟨rfl, rfl⟩ := hafter
          have hread := read_append hword hhead
          rw [List.cons_append, readAll_of_read hc hread (by rw [hword]; rfl) (by simpa using hgoes),
            hrest]

theorem ending_ofTokens {opener : Text} {tokens : List TagToken}
    (h : (StartTag.ofTokens opener tokens).ending ≠ .missing) : tokens.any isLast = true := by
  have hending : TagEnding.ofTokens tokens ≠ .missing := h
  unfold TagEnding.ofTokens at hending
  split at hending
  · next hlast => exact List.any_eq_true.2 ⟨_, List.mem_of_getLast? hlast, rfl⟩
  · next hlast => exact List.any_eq_true.2 ⟨_, List.mem_of_getLast? hlast, rfl⟩
  · exact absurd rfl hending

theorem closed_ofTokens {tokens : List TagToken} (h : (EndTag.ofTokens tokens).closed = true) :
    tokens.any isLast = true := by
  have hlast : tokens.getLast? = some .rightAngle := beq_iff_eq.1 h
  exact List.any_eq_true.2 ⟨_, List.mem_of_getLast? hlast, rfl⟩

/-- A tag that ends has a `>` in it. -/
theorem mem_flatMap_text {tokens : List TagToken} (h : tokens.any isLast = true) :
    '>' ∈ tokens.flatMap text := by
  obtain ⟨token, htoken, hlast⟩ := List.any_eq_true.1 h
  apply List.mem_flatMap.2 ⟨token, htoken, _⟩
  cases token with
  | rightAngle => decide
  | slashRightAngle => decide
  | _ => cases hlast

end TagToken

/-! ## Pieces -/

namespace Piece

/-- Whether the piece is not a tag that is cut short. -/
def IsClosed : Piece → Prop
  | .start tag => tag.ending ≠ .missing
  | .stop tag => tag.closed = true
  | .run _ _ => True

/-- What a reader of markup answers in front of `rest`, if the piece it finds is `word`: it has a
`>` in it, and stays the same whatever stands behind it. -/
structure Stable (read : Text → Piece × Mode) (word rest : Text) : Prop where
  angle : '>' ∈ word
  mode : (read (word ++ rest)).2 = .content
  all : ∀ rest', read (word ++ rest') = read (word ++ rest)

theorem drop_append_of_take {n : Nat} {word body rest : Text} (hlength : n < (word ++ rest).length)
    (hword : word = (word ++ rest).take n ++ body) (rest' : Text) :
    (word ++ rest').take n = (word ++ rest).take n ∧ (word ++ rest').drop n = body ++ rest' := by
  have htake : ((word ++ rest).take n).length = n := by
    rw [List.length_take]
    omega
  have hsplit : word ++ rest' = (word ++ rest).take n ++ (body ++ rest') := by
    rw [← List.append_assoc, ← hword]
  constructor
  · rw [hsplit]
    exact List.take_left' htake
  · rw [hsplit]
    exact List.drop_left' htake

/-- What is needed of the reader of a tag: the tag is made of the tokens behind the opener. -/
theorem tag_append {n : Nat} {word rest : Text}
    (hlast : (TagToken.readAll 0 ((word ++ rest).drop n)).any TagToken.isLast = true)
    (hword : word = (word ++ rest).take n ++
      (TagToken.readAll 0 ((word ++ rest).drop n)).flatMap TagToken.text) :
    '>' ∈ word ∧ ∀ rest', (word ++ rest').take n = (word ++ rest).take n ∧
      TagToken.readAll 0 ((word ++ rest').drop n) = TagToken.readAll 0 ((word ++ rest).drop n) := by
  have hlength : n < (word ++ rest).length := by
    cases hdrop : (word ++ rest).drop n with
    | nil =>
      rw [hdrop] at hlast
      cases hlast
    | cons c t =>
      have hlength := congrArg List.length hdrop
      rw [List.length_drop, List.length_cons] at hlength
      omega
  constructor
  · rw [hword]
    exact List.mem_append_right _ (TagToken.mem_flatMap_text hlast)
  · intro rest'
    obtain ⟨htake, hdrop⟩ := drop_append_of_take hlength hword rest'
    rw [htake, hdrop]
    exact ⟨rfl, TagToken.readAll_append hlast rest'⟩

theorem stable_readStart {n : Nat} {word rest : Text}
    (hclosed : (readStart n (word ++ rest)).1.IsClosed)
    (hword : (readStart n (word ++ rest)).1.text = word) : Stable (readStart n) word rest := by
  have hlast := TagToken.ending_ofTokens hclosed
  have htext : word = (word ++ rest).take n ++
      (TagToken.readAll 0 ((word ++ rest).drop n)).flatMap TagToken.text := by
    rw [← StartTag.text_ofTokens _ (TagToken.pairwise_isLast_readAll _)]
    exact hword.symm
  obtain ⟨hangle, hall⟩ := tag_append hlast htext
  refine ⟨hangle, if_pos hlast, fun rest' => ?_⟩
  obtain ⟨htake, htokens⟩ := hall rest'
  simp only [readStart, htake, htokens]

theorem stable_readStop {word rest : Text} (hopener : EndTag.opener <+: word ++ rest)
    (hclosed : (readStop (word ++ rest)).1.IsClosed)
    (hword : (readStop (word ++ rest)).1.text = word) : Stable readStop word rest := by
  have hlast := TagToken.closed_ofTokens hclosed
  have htext : word = (word ++ rest).take 2 ++
      (TagToken.readAll 0 ((word ++ rest).drop 2)).flatMap TagToken.text := by
    have htake : EndTag.opener = (word ++ rest).take 2 := List.prefix_iff_eq_take.1 hopener
    rw [← htake, ← EndTag.text_ofTokens (TagToken.pairwise_isLast_readAll _)]
    exact hword.symm
  obtain ⟨hangle, hall⟩ := tag_append hlast htext
  refine ⟨hangle, if_pos hlast, fun rest' => ?_⟩
  simp only [readStop, (hall rest').2]

/-- A run in front of more text ends with its terminator, which is found there whatever comes
after. -/
theorem readRun_stops {kind : RunKind} {n : Nat} {stop word rest : Text} (hstop : stop ≠ [])
    (hrest : rest ≠ []) (hword : (readRun kind n stop (word ++ rest)).text = word) :
    n + (word.drop n).length = word.length ∧ stop <:+ word.drop n ∧
      ∀ rest' : Text, Text.lengthThrough stop (word.drop n ++ rest') = (word.drop n).length := by
  have htake : (word ++ rest).take (n + Text.lengthThrough stop ((word ++ rest).drop n)) = word := hword
  have hlength : n + Text.lengthThrough stop ((word ++ rest).drop n) = word.length := by
    have hlength := congrArg List.length htake
    have hpos := List.length_pos_iff.2 hrest
    rw [List.length_take, List.length_append] at hlength
    omega
  have hdropped : (word.drop n).length = Text.lengthThrough stop ((word ++ rest).drop n) := by
    rw [List.length_drop]
    omega
  refine ⟨by omega, ?_⟩
  rw [List.drop_append_of_le_length (by omega)] at hdropped
  exact Text.lengthThrough_stable hstop hrest hdropped.symm

theorem stable_readRun {kind : RunKind} {n : Nat} {stop word rest : Text} (hstop : '>' ∈ stop)
    (hrest : rest ≠ []) (hword : (readRun kind n stop (word ++ rest)).text = word) :
    Stable (fun t => (readRun kind n stop t, .content)) word rest := by
  obtain ⟨hcount, hsuffix, hall⟩ := readRun_stops (List.ne_nil_of_mem hstop) hrest hword
  refine ⟨List.mem_of_mem_drop (hsuffix.subset hstop), rfl, fun rest' => ?_⟩
  have htext (after : Text) :
      (word ++ after).take (n + Text.lengthThrough stop ((word ++ after).drop n)) = word := by
    rw [List.drop_append_of_le_length (by omega), hall, hcount, List.take_left]
  simp only [readRun, htext]

/-- The reader of the piece at a `<` outside tags, by what the text there begins with. -/
def markupReader (begins : Text → Bool) : Text → Piece × Mode :=
  if begins ['<', '/'] then readStop
  else if begins ['<', '!', '-', '-'] then
    fun t => (readRun .comment 4 ['-', '-', '>'] t, .content)
  else if begins "<![CDATA[".toList then
    fun t => (readRun .cdata 9 [']', ']', '>'] t, .content)
  else if begins ['<', '?'] then fun t => (readRun .instruction 2 ['?', '>'] t, .content)
  else if begins ['<', '!', '-'] || begins ['<', '!', '['] then readStart 2
  else if begins ['<', '!'] then fun t => (readRun .doctype 2 ['>'] t, .content)
  else readStart 1

theorem readMarkup_content (t : Text) :
    readMarkup .content t = markupReader (fun w => w.isPrefixOf t) t := by
  have hmode : Mode.content ≠ .tag := nofun
  unfold readMarkup markupReader
  rw [if_neg hmode]
  repeat' split
  all_goals rfl

/-- What a text begins with is only asked about openers, and none of them has a `>` in it. -/
theorem markupReader_congr {begins begins' : Text → Bool}
    (h : ∀ w, '>' ∉ w → begins w = begins' w) : markupReader begins = markupReader begins' := by
  unfold markupReader
  rw [h _ (by decide), h _ (by decide), h _ (by decide), h _ (by decide), h _ (by decide),
    h ['<', '!', '['] (by decide), h ['<', '!'] (by decide)]

theorem stable_markupReader {begins : Text → Bool} {word rest : Text} (hrest : rest ≠ [])
    (hbegins : begins ['<', '/'] = true → EndTag.opener <+: word ++ rest)
    (hclosed : (markupReader begins (word ++ rest)).1.IsClosed)
    (hword : (markupReader begins (word ++ rest)).1.text = word) :
    Stable (markupReader begins) word rest := by
  unfold markupReader at hclosed hword ⊢
  split
  · next h =>
    rw [if_pos h] at hclosed hword
    exact stable_readStop (hbegins h) hclosed hword
  next hend =>
  rw [if_neg hend] at hclosed hword
  split
  · next h =>
    rw [if_pos h] at hword
    exact stable_readRun (by decide) hrest hword
  next hcomment =>
  rw [if_neg hcomment] at hclosed hword
  split
  · next h =>
    rw [if_pos h] at hword
    exact stable_readRun (by decide) hrest hword
  next hsection =>
  rw [if_neg hsection] at hclosed hword
  split
  · next h =>
    rw [if_pos h] at hword
    exact stable_readRun (by decide) hrest hword
  next hinstruction =>
  rw [if_neg hinstruction] at hclosed hword
  split
  · next h =>
    rw [if_pos h] at hclosed hword
    exact stable_readStart hclosed hword
  next hbroken =>
  rw [if_neg hbroken] at hclosed hword
  split
  · next h =>
    rw [if_pos h] at hword
    exact stable_readRun (by decide) hrest hword
  · next h =>
    rw [if_neg h] at hclosed hword
    exact stable_readStart hclosed hword

/-- **A piece of markup that is closed depends on nothing behind it**, if something stands there. -/
theorem stable_readMarkup {word rest : Text} (hrest : rest ≠ [])
    (hclosed : (readMarkup .content (word ++ rest)).1.IsClosed)
    (hword : (readMarkup .content (word ++ rest)).1.text = word) :
    Stable (readMarkup .content) word rest := by
  rw [readMarkup_content] at hclosed hword
  obtain ⟨hangle, hmode, hall⟩ := stable_markupReader hrest List.isPrefixOf_iff_prefix.1 hclosed hword
  refine ⟨hangle, by rw [readMarkup_content]; exact hmode, fun rest' => ?_⟩
  -- The piece has a `>`, so what decides about its reader stands inside it.
  have hreader : markupReader (fun w => w.isPrefixOf (word ++ rest')) =
      markupReader fun w => w.isPrefixOf (word ++ rest) :=
    markupReader_congr fun w hw => Text.isPrefixOf_stable hangle hw rest' rest
  rw [readMarkup_content, readMarkup_content, hreader]
  exact hall rest'

theorem mode_markupReader {begins : Text → Bool} {t : Text}
    (h : (markupReader begins t).1.IsClosed) : (markupReader begins t).2 = .content := by
  have hstart (n : Nat) (h : (readStart n t).1.IsClosed) : (readStart n t).2 = .content :=
    if_pos (TagToken.ending_ofTokens h)
  have hstop (h : (readStop t).1.IsClosed) : (readStop t).2 = .content :=
    if_pos (TagToken.closed_ofTokens h)
  unfold markupReader at h ⊢
  repeat' split
  all_goals simp_all only [if_true, if_false, Bool.false_eq_true]

/-- After a closed piece the reader is outside tags again. -/
theorem mode_readNext {c : Char} {rest : Text} (h : (readNext .content c rest).1.IsClosed) :
    (readNext .content c rest).2 = .content := by
  unfold readNext at h ⊢
  split
  · next hc =>
    rw [if_pos hc, readMarkup_content] at h
    rw [readMarkup_content]
    exact mode_markupReader h
  · rfl

/-- Whether a text may stand behind pieces in place of another: it begins with a `<` or as the other
does, and what was the end of everything stays it. -/
structure CanReplace (rest rest' : Text) : Prop where
  nil : rest = [] → rest' = []
  head : ∀ c ∈ rest'.head?, c = '<' ∨ rest.head? = some c

theorem CanReplace.append {rest rest' : Text} (h : CanReplace rest rest') (front : Text) :
    CanReplace (front ++ rest) (front ++ rest') := by
  cases front with
  | nil => exact h
  | cons c front => exact ⟨nofun, fun d hd => .inr hd⟩

/-- **A closed piece is read in front of whatever may stand there.** -/
theorem readNext_append {c : Char} {word rest rest' : Text} (h : CanReplace rest rest')
    (hclosed : (readNext .content c (word ++ rest)).1.IsClosed)
    (hword : (readNext .content c (word ++ rest)).1.text = c :: word) :
    readNext .content c (word ++ rest') = readNext .content c (word ++ rest) := by
  unfold readNext at hclosed hword ⊢
  split
  · next hc =>
    rw [if_pos hc] at hclosed hword
    by_cases hrest : rest = []
    · rw [h.nil hrest, hrest]
    · have hstable : Stable (readMarkup .content) (c :: word) rest :=
        stable_readMarkup hrest hclosed hword
      exact hstable.all rest'
  · next hc =>
    rw [if_neg hc] at hword
    -- Character data ends at a `<` or with the text, and still does.
    have htake : (c :: word ++ rest).take (Text.lengthWhile (fun d => d != '<') (c :: word ++ rest)) =
        c :: word := hword
    have hlength : Text.lengthWhile (fun d => d != '<') (c :: word ++ rest) = (c :: word).length := by
      rw [Text.take_lengthWhile] at htake
      rw [Text.lengthWhile_eq, htake]
    obtain ⟨hinside, hend⟩ := Text.lengthWhile_append_iff.1 hlength
    have hlength' : Text.lengthWhile (fun d => d != '<') (c :: word ++ rest') = (c :: word).length := by
      refine Text.lengthWhile_append_iff.2 ⟨hinside, fun d hd => ?_⟩
      obtain hangle | hsame := h.head d hd
      · rw [hangle]
        rfl
      · exact hend d hsame
    have htake' : (c :: word ++ rest').take (Text.lengthWhile (fun d => d != '<') (c :: word ++ rest')) =
        c :: word := by
      rw [hlength', List.take_left]
    have hdata : readData (c :: word ++ rest') = readData (c :: word ++ rest) := by
      simp only [readData, htake, htake']
    exact congrArg (·, Mode.content) hdata

/-- The first piece of a text is the one that its first character begins. -/
theorem readAll_eq_cons {p : Piece} {qs : List Piece} {rest : Text}
    (h : readAll .content 0 (p.text ++ rest) = p :: qs) :
    ∃ c word, p.text = c :: word ∧ (readNext .content c (word ++ rest)).1 = p ∧
      qs = readAll (readNext .content c (word ++ rest)).2 0 rest := by
  cases htext : p.text ++ rest with
  | nil =>
    rw [htext] at h
    cases h
  | cons c t =>
    obtain ⟨⟨after, hafter⟩, hsolid⟩ := isFront_readNext .content c t
    rw [htext, readAll_cons .content hafter.symm, List.cons.injEq] at h
    obtain ⟨hp, hqs⟩ := h
    rw [hp] at hafter hsolid
    cases hword : p.text with
    | nil => exact absurd hword (text_ne_nil hsolid)
    | cons d word =>
      rw [hword, List.cons_append, List.cons.injEq] at htext
      obtain ⟨rfl, rfl⟩ := htext
      have hrest : after = rest := by
        rw [hword, List.cons_append, List.cons.injEq] at hafter
        exact List.append_cancel_left hafter.2
      rw [hrest] at hqs
      exact ⟨d, word, rfl, hp, hqs.symm⟩

/-- **Closed pieces are read in front of whatever may stand there.** -/
theorem readAll_append {ps qs : List Piece} {rest : Text}
    (hread : readAll .content 0 (ps.flatMap text ++ rest) = ps ++ qs)
    (hclosed : ∀ p ∈ ps, p.IsClosed) :
    qs = readAll .content 0 rest ∧ ∀ rest', CanReplace rest rest' →
      readAll .content 0 (ps.flatMap text ++ rest') = ps ++ readAll .content 0 rest' := by
  induction ps with
  | nil => exact ⟨hread.symm, fun _ _ => rfl⟩
  | cons p ps ih =>
    rw [List.forall_mem_cons] at hclosed
    rw [List.flatMap_cons, List.append_assoc, List.cons_append] at hread
    obtain ⟨c, word, hword, hp, hqs⟩ := readAll_eq_cons hread
    have hmode := mode_readNext (hp ▸ hclosed.1)
    rw [hmode] at hqs
    obtain ⟨hrest, hall⟩ := ih hqs.symm hclosed.2
    refine ⟨hrest, fun rest' hrest' => ?_⟩
    have hnext := readNext_append (hrest'.append (ps.flatMap text)) (hp ▸ hclosed.1) (hp ▸ hword)
    have htext : c :: (word ++ (ps.flatMap text ++ rest')) =
        (readNext .content c (word ++ (ps.flatMap text ++ rest'))).1.text ++
          (ps.flatMap text ++ rest') := by
      rw [hnext, hp, hword]
      rfl
    rw [List.flatMap_cons, List.append_assoc, hword, List.cons_append, readAll_cons .content htext,
      hnext, hmode, hp, hall rest' hrest']
    rfl

end Piece

end Markup

end ProjectFile
