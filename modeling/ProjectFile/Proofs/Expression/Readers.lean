import ProjectFile.Proofs.Expression.Shape

/-!
What the readers of expressions make is shaped by the text.

`Answers` is what is kept from reader to reader: whatever a reader makes fits the text, the tokens
that it leaves stand behind that, and if it fails it does so between two characters. The readers that
call one another are settled together, by induction on the calls they may still make (`readers`).
-/

namespace ProjectFile.Expression

open ProjectFile.Expression.Expr (Between Fills Tiles ofSymbol?)

/-! ## Answers -/

/-- Whether a reader answers well: the tokens that are left stand from an offset on that `P` allows
for what was read, or else the reader stopped between two characters. -/
def Answers {α : Type} (t : Text) (stop : Nat) (P : Nat → Taken α → Prop) :
    Except ParseError (Taken α) → Prop
  | .ok answer => ∃ offset, Token.Stand t stop offset answer.2 ∧ P offset answer
  | .error problem => t.IsBoundary problem.offset

namespace Answers

variable {α β : Type} {t : Text} {stop : Nat}

theorem ok {P : Nat → Taken α → Prop} {offset : Nat} {answer : Taken α}
    (h : Token.Stand t stop offset answer.2) (hP : P offset answer) : Answers t stop P (.ok answer) :=
  ⟨offset, h, hP⟩

theorem error {P : Nat → Taken α → Prop} {offset : Nat} (h : t.IsBoundary offset) (problem : Problem) :
    Answers t stop P (.error ⟨problem, offset⟩) := h

theorem mono {P Q : Nat → Taken α → Prop} {x : Except ParseError (Taken α)} (hx : Answers t stop P x)
    (hPQ : ∀ offset answer, P offset answer → Q offset answer) : Answers t stop Q x := by
  cases x with
  | error problem => exact hx
  | ok answer =>
    obtain ⟨offset, hstand, hP⟩ := hx
    exact ⟨offset, hstand, hPQ offset answer hP⟩

/-- One reader after another. -/
theorem bind {P : Nat → Taken α → Prop} {Q : Nat → Taken β → Prop}
    {x : Except ParseError (Taken α)} {f : Taken α → Except ParseError (Taken β)} (hx : Answers t stop P x)
    (hf : ∀ offset answer, Token.Stand t stop offset answer.2 → P offset answer →
      Answers t stop Q (f answer)) : Answers t stop Q (x >>= f) := by
  cases x with
  | error problem => exact hx
  | ok answer =>
    obtain ⟨offset, hstand, hP⟩ := hx
    exact hf offset answer hstand hP

/-- A reader behind one that gives the offset it has come to. -/
theorem bind_offset {Q : Nat → Taken β → Prop} {offset : Nat} {x : Except ParseError (Taken Nat)}
    {f : Taken Nat → Except ParseError (Taken β)}
    (hx : Answers t stop (fun after answer => answer.1 = after ∧ offset ≤ after) x)
    (hf : ∀ after rest, Token.Stand t stop after rest → offset ≤ after →
      Answers t stop Q (f (after, rest))) : Answers t stop Q (x >>= f) := by
  refine hx.bind fun after answer hrest ⟨hoffset, hle⟩ => ?_
  subst hoffset
  exact hf answer.1 answer.2 hrest hle

end Answers

/-! ## What does not call itself -/

section

variable {t : Text} {stop start offset : Nat} {ts : List Token}

theorem answers_closeConstruct (h : Token.Stand t stop offset ts) (construct : Construct) :
    Answers t stop (fun after answer => answer.1 = after ∧ offset ≤ after)
      (closeConstruct stop construct ts) := by
  cases ts with
  | nil => exact .error h.isBoundary.2.1 _
  | cons u us =>
    obtain ⟨-, rfl, -⟩ := h.head
    rw [closeConstruct]
    split
    · exact .ok h.tail ⟨rfl, h.le_stop⟩
    · exact .error h.isBoundary.1 _

theorem answers_closeParenthesis (h : Token.Stand t stop offset ts) :
    Answers t stop (fun after answer => answer.1 = after ∧ offset ≤ after)
      (closeParenthesis stop ts) := by
  cases ts with
  | nil => exact .error h.isBoundary.2.1 _
  | cons u us =>
    obtain ⟨-, rfl, -⟩ := h.head
    rw [closeParenthesis]
    split
    · exact .ok h.tail ⟨rfl, h.le_stop⟩
    · rw [h.tail.offsetOf_eq]
      exact .error h.tail.isBoundary.1 _

/-- A name in front stands there, and the tokens that are left behind it. -/
theorem stand_takeSymbol (h : Token.Stand t stop offset ts) :
    ∃ after, Token.Stand t stop after (takeSymbol ts).2 ∧
      Between t offset (ofSymbol? (takeSymbol ts).1) after := by
  cases ts with
  | nil => exact ⟨offset, h, Nat.le_refl _⟩
  | cons u us =>
    obtain ⟨-, rfl, hcovers⟩ := h.head
    rw [takeSymbol]
    split
    · exact ⟨u.span.stop, h.tail, Expr.wellShaped_symbol hcovers, Nat.le_refl _, Nat.le_refl _⟩
    · exact ⟨u.start, h, Nat.le_refl _⟩

/-- So does a name with space around it. -/
theorem stand_named (h : Token.Stand t stop offset ts) :
    ∃ after, Token.Stand t stop after (skipSpace (takeSymbol (skipSpace ts)).2) ∧
      Between t offset (ofSymbol? (takeSymbol (skipSpace ts)).1) after := by
  obtain ⟨before, hle, hbefore⟩ := h.skipSpace
  obtain ⟨middle, hmiddle, hname⟩ := stand_takeSymbol hbefore
  obtain ⟨after, hle', hafter⟩ := hmiddle.skipSpace
  exact ⟨after, hafter, hname.mono hle hle'⟩

/-- What is left behind balanced parentheses stands there. -/
theorem stand_skipBalanced {depth after : Nat} {inQuote : Bool} {rest : List Token}
    (h : Token.Stand t stop offset ts) (hskip : skipBalanced depth inQuote ts = some (after, rest)) :
    Token.Stand t stop after rest ∧ offset ≤ after := by
  induction ts generalizing offset depth inQuote with
  | nil => cases hskip
  | cons u us ih =>
    obtain ⟨-, rfl, -⟩ := h.head
    have hu := h.le_stop
    have hbehind {depth : Nat} {inQuote : Bool}
        (hskip : skipBalanced depth inQuote us = some (after, rest)) :
        Token.Stand t stop after rest ∧ u.start ≤ after := by
      obtain ⟨hrest, hle⟩ := ih h.tail hskip
      exact ⟨hrest, Nat.le_trans hu hle⟩
    rw [skipBalanced] at hskip
    split at hskip
    · exact hbehind hskip
    split at hskip
    · exact hbehind hskip
    split at hskip
    · exact hbehind hskip
    split at hskip
    · split at hskip
      · cases hskip
        exact ⟨h.tail, hu⟩
      · exact hbehind hskip
    · exact hbehind hskip

/-! ### References -/

theorem answers_readProperty (hstart : t.IsBoundary start) (hle : start ≤ offset)
    (h : Token.Stand t stop offset ts) :
    Answers t stop (fun after answer => answer.1.Fills t start after) (readProperty stop start ts) := by
  obtain ⟨middle, hrest, hname⟩ := stand_named h
  have hnode {after : Nat} {left : List Token} (isFunction : Bool) (hafter : middle ≤ after)
      (hleft : Token.Stand t stop after left) :
      (Expr.property ⟨start, after⟩ (takeSymbol (skipSpace ts)).1 isFunction).Fills t start after :=
    .of_between rfl rfl hstart hleft.isBoundary.1 (hname.mono hle hafter) trivial
  unfold readProperty
  extract_lets named rest isFunction
  split
  · split
    · next after left hskip =>
      obtain ⟨hleft, hafter⟩ := stand_skipBalanced hrest hskip
      exact .ok hleft (hnode true hafter hleft)
    · exact .error hrest.isBoundary.2.1 _
  · refine (answers_closeConstruct hrest _).bind_offset fun after left hleft hafter => ?_
    exact .ok hleft (hnode false hafter hleft)

theorem answers_readMetadata (hstart : t.IsBoundary start) (hle : start ≤ offset)
    (h : Token.Stand t stop offset ts) :
    Answers t stop (fun after answer => answer.1.Fills t start after) (readMetadata stop start ts) := by
  obtain ⟨middle, hrest, hfirst⟩ := stand_named h
  unfold readMetadata
  dsimp only
  split
  · next u us hus =>
    rw [hus] at hrest
    split
    · obtain ⟨-, rfl, -⟩ := hrest.head
      obtain ⟨last, hlast, hsecond⟩ := stand_named hrest.tail
      refine (answers_closeConstruct hlast _).bind_offset fun after left hleft hafter => ?_
      have hnames := (hfirst.mono hle hrest.le_stop).append (hsecond.mono (Nat.le_refl _) hafter)
      exact .ok hleft (.of_between rfl rfl hstart hleft.isBoundary.1 hnames trivial)
    · refine (answers_closeConstruct hrest _).bind_offset fun after left hleft hafter => ?_
      exact .ok hleft (.of_between rfl rfl hstart hleft.isBoundary.1 (hfirst.mono hle hafter) trivial)
  · exact .error hrest.isBoundary.2.1 _

end

/-! ## What calls itself -/

/-- What the readers that may still make `n` calls answer. -/
structure Readers (t : Text) (stop n : Nat) : Prop where
  run : ∀ {ends : TokenKind → Bool} {offset : Nat} {ts : List Token}, Token.Stand t stop offset ts →
    Answers t stop (fun after answer => Tiles t offset answer.1 after ∧
      ∀ u ∈ answer.2.head?, ends u.kind = true) (readRun stop ends n ts)
  items : ∀ {start offset : Nat} {ts : List Token}, t.IsBoundary start → start ≤ offset →
    Token.Stand t stop offset ts →
    Answers t stop (fun after answer => answer.1.Fills t start after) (readItems stop n start ts)
  transform : ∀ {offset : Nat} {ts : List Token}, Token.Stand t stop offset ts →
    Answers t stop (fun after answer => Between t offset answer.1.toList after)
      (readTransform stop n ts)
  separator : ∀ {offset : Nat} {ts : List Token}, Token.Stand t stop offset ts →
    Answers t stop (fun after answer => Between t offset answer.1.toList after)
      (readSeparator stop n ts)
  quoted : ∀ {u : Token} {offset : Nat} {ts : List Token}, u.kind = .quote →
    Token.Stand t stop offset (u :: ts) →
    Answers t stop (fun after answer => answer.1.Fills t offset after) (readQuoted stop n u.start ts)
  disjunction : ∀ {offset : Nat} {ts : List Token}, Token.Stand t stop offset ts →
    Answers t stop (fun after answer => Between t offset [answer.1] after) (readOr stop n ts)
  moreDisjunction : ∀ {start offset : Nat} {left : Expr} {ts : List Token},
    Between t start [left] offset → Token.Stand t stop offset ts →
    Answers t stop (fun after answer => Between t start [answer.1] after) (readMoreOr stop n left ts)
  conjunction : ∀ {offset : Nat} {ts : List Token}, Token.Stand t stop offset ts →
    Answers t stop (fun after answer => Between t offset [answer.1] after) (readAnd stop n ts)
  moreConjunction : ∀ {start offset : Nat} {left : Expr} {ts : List Token},
    Between t start [left] offset → Token.Stand t stop offset ts →
    Answers t stop (fun after answer => Between t start [answer.1] after) (readMoreAnd stop n left ts)
  negation : ∀ {offset : Nat} {ts : List Token}, Token.Stand t stop offset ts →
    Answers t stop (fun after answer => Between t offset [answer.1] after) (readNot stop n ts)
  operand : ∀ {u : Token} {offset : Nat} {ts : List Token}, Token.Stand t stop offset (u :: ts) →
    Answers t stop (fun after answer => answer.1.Fills t offset after) (readOperand stop n u ts)
  arguments : ∀ {offset : Nat} {ts : List Token}, Token.Stand t stop offset ts →
    Answers t stop (fun after answer => Between t offset answer.1 after) (readArguments stop n ts)
  moreArguments : ∀ {offset : Nat} {ts : List Token}, Token.Stand t stop offset ts →
    Answers t stop (fun after answer => Between t offset answer.1 after)
      (readMoreArguments stop n ts)

section

variable {t : Text} {stop n start offset : Nat} {u : Token} {ts : List Token} {left : Expr}
  (readers : ∀ m < n, Readers t stop m)

include readers

/-! ### Text runs and item references -/

omit readers in
/-- A run with a part in front of it. -/
theorem answers_partAndRun (hreaders : Readers t stop n) {ends : TokenKind → Bool} {part : Expr}
    (hpart : part.Fills t start offset) (h : Token.Stand t stop offset ts) :
    Answers t stop (fun after answer => Tiles t start answer.1 after ∧
      ∀ u ∈ answer.2.head?, ends u.kind = true) (do
        let (parts, rest) ← readRun stop ends n ts
        return (part :: parts, rest)) := by
  refine (hreaders.run h).bind fun last ⟨parts, rest⟩ hlast ⟨hparts, hends⟩ => ?_
  have htiles := hparts
  rw [← show part.span.stop = offset from congrArg Span.stop hpart.2] at htiles
  have hall := Tiles.cons hpart.1 htiles
  rw [show part.span.start = start from congrArg Span.start hpart.2] at hall
  exact .ok hlast ⟨hall, hends⟩

theorem answers_readRun {ends : TokenKind → Bool} (h : Token.Stand t stop offset ts) :
    Answers t stop (fun after answer => Tiles t offset answer.1 after ∧
      ∀ u ∈ answer.2.head?, ends u.kind = true) (readRun stop ends n ts) := by
  cases ts with
  | nil =>
    rw [readRun]
    exact .ok h ⟨.nil t offset, nofun⟩
  | cons u us =>
    obtain ⟨-, rfl, hcovers⟩ := h.head
    have hu := h.le_stop
    have hstart := h.isBoundary.1
    cases n with
    | zero =>
      rw [readRun]
      exact .error hstart _
    | succ n =>
      have hreaders := readers n (Nat.lt_succ_self n)
      rw [readRun]
      split
      · next hends =>
        refine .ok h ⟨.nil t _, fun v hv => ?_⟩
        cases hv
        exact hends
      · split
        · exact (answers_readProperty hstart hu h.tail).bind fun _ _ hrest hpart =>
            answers_partAndRun hreaders hpart hrest
        · exact (hreaders.items hstart hu h.tail).bind fun _ _ hrest hpart =>
            answers_partAndRun hreaders hpart hrest
        · exact (answers_readMetadata hstart hu h.tail).bind fun _ _ hrest hpart =>
            answers_partAndRun hreaders hpart hrest
        · refine (hreaders.run h.tail).bind fun last ⟨parts, rest⟩ hlast ⟨hparts, hends⟩ => ?_
          exact .ok hlast ⟨hparts.prependText hcovers, hends⟩

theorem answers_readItems (hstart : t.IsBoundary start) (hle : start ≤ offset)
    (h : Token.Stand t stop offset ts) :
    Answers t stop (fun after answer => answer.1.Fills t start after) (readItems stop n start ts) := by
  cases n with
  | zero =>
    rw [readItems]
    exact .error hstart _
  | succ n =>
    have hreaders := readers n (Nat.lt_succ_self n)
    obtain ⟨o₁, h₁, hname⟩ := stand_named h
    rw [readItems]
    refine (hreaders.transform h₁).bind fun o₂ ⟨transform, rest⟩ h₂ htransform => ?_
    refine (hreaders.separator h₂).bind fun o₃ ⟨separator, rest⟩ h₃ hseparator => ?_
    refine (answers_closeConstruct h₃ _).bind_offset fun after rest hrest hafter => ?_
    have hchildren := (hname.mono hle (Nat.le_refl _)).append
      (htransform.append (hseparator.mono (Nat.le_refl _) hafter))
    exact .ok hrest (.of_between rfl rfl hstart hrest.isBoundary.1 hchildren trivial)

/-! ### Quoted strings, transforms and separators -/

theorem answers_readQuoted (hquote : u.kind = .quote) (h : Token.Stand t stop offset (u :: ts)) :
    Answers t stop (fun after answer => answer.1.Fills t offset after) (readQuoted stop n u.start ts) := by
  obtain ⟨hmem, rfl, -⟩ := h.head
  have hstart := h.isBoundary.1
  cases n with
  | zero =>
    rw [readQuoted]
    exact .error hstart _
  | succ n =>
    have hreaders := readers n (Nat.lt_succ_self n)
    rw [readQuoted]
    refine (hreaders.run h.tail).bind fun o ⟨parts, rest⟩ hrest ⟨hparts, hends⟩ => ?_
    cases rest with
    | nil => exact .error hrest.isBoundary.2.1 _
    | cons v vs =>
      obtain ⟨hmem', rfl, -⟩ := hrest.head
      have hclosing : v.kind = .quote := beq_iff_eq.1 (hends v rfl)
      have hchildren := (Between.of_tiledBy hparts.2 hparts.1).mono h.le_stop hrest.le_stop
      exact .ok hrest.tail (.of_between rfl rfl hstart hrest.tail.isBoundary.1 hchildren
        ⟨u, hmem, v, hmem', hquote, hclosing, rfl, hparts.2⟩)

omit readers in
/-- A quoted string with space behind it. -/
theorem answers_spacedQuoted (hreaders : Readers t stop n) (hle : start ≤ offset)
    (hquote : u.kind = .quote) (h : Token.Stand t stop offset (u :: ts)) :
    Answers t stop (fun after answer => Between t start answer.1.toList after) (do
      let (e, rest) ← readQuoted stop n u.start ts
      return (some e, skipSpace rest)) := by
  refine (hreaders.quoted hquote h).bind fun after ⟨e, rest⟩ hrest he => ?_
  obtain ⟨last, hlast, hskipped⟩ := hrest.skipSpace
  exact .ok hskipped (he.between.mono hle hlast)

omit readers in
/-- A name and the parenthesis behind it begin a call. -/
theorem exists_of_beginsCall (h : beginsCall (u :: ts) = true) : ∃ v vs, ts = v :: vs := by
  cases ts with
  | nil => cases h
  | cons v vs => exact ⟨v, vs, rfl⟩

omit readers in
/-- A call reaches over its name and its arguments. -/
theorem fills_call {v : Token} {vs rest : List Token} {arguments : List Expr} {o after : Nat}
    (h : Token.Stand t stop offset (u :: v :: vs)) (harguments : Between t v.span.stop arguments o)
    (hle : o ≤ after) (hrest : Token.Stand t stop after rest) :
    (Expr.call ⟨u.start, after⟩ ⟨u.span, u.text⟩ arguments).Fills t offset after := by
  obtain ⟨-, rfl, hcovers⟩ := h.head
  have hchildren : Between t u.start (.symbol ⟨u.span, u.text⟩ :: arguments) after :=
    ⟨Expr.wellShaped_symbol hcovers, Nat.le_refl _,
      harguments.mono h.tail.le_stop hle⟩
  exact .of_between rfl rfl h.isBoundary.1 hrest.isBoundary.1 hchildren trivial

theorem answers_readTransform (h : Token.Stand t stop offset ts) :
    Answers t stop (fun after answer => Between t offset answer.1.toList after)
      (readTransform stop n ts) := by
  cases ts with
  | nil =>
    rw [readTransform]
    exact .ok h (Nat.le_refl _)
  | cons u us =>
    cases n with
    | zero =>
      rw [readTransform, h.head.2.1]
      exact .error h.isBoundary.1 _
    | succ n =>
      have hreaders := readers n (Nat.lt_succ_self n)
      obtain ⟨-, rfl, -⟩ := h.head
      have hu := h.le_stop
      obtain ⟨o, ho, hskipped⟩ := h.tail.skipSpace
      rw [readTransform]
      split
      · exact .ok h (Nat.le_refl _)
      split
      · exact .error h.isBoundary.2.1 _
      · next v vs hvs =>
        rw [hvs] at hskipped
        split
        · next hquote =>
          exact answers_spacedQuoted hreaders (Nat.le_trans hu ho) hquote hskipped
        split
        · next hcall =>
          obtain ⟨w, ws, rfl⟩ := exists_of_beginsCall hcall
          refine (hreaders.arguments hskipped.tail.tail).bind fun o₁ ⟨arguments, rest⟩ h₁ harguments => ?_
          refine (answers_closeConstruct h₁ _).bind_offset fun after rest hrest hafter => ?_
          obtain ⟨last, hlast, hspaced⟩ := hrest.skipSpace
          have hfills := fills_call hskipped harguments hafter hrest
          exact .ok hspaced (hfills.between.mono (Nat.le_trans hu ho) hlast)
        · rw [hskipped.head.2.1]
          exact .error hskipped.isBoundary.1 _

theorem answers_readSeparator (h : Token.Stand t stop offset ts) :
    Answers t stop (fun after answer => Between t offset answer.1.toList after)
      (readSeparator stop n ts) := by
  cases ts with
  | nil =>
    rw [readSeparator]
    exact .ok h (Nat.le_refl _)
  | cons u us =>
    cases n with
    | zero =>
      rw [readSeparator, h.head.2.1]
      exact .error h.isBoundary.1 _
    | succ n =>
      have hreaders := readers n (Nat.lt_succ_self n)
      obtain ⟨-, rfl, -⟩ := h.head
      have hu := h.le_stop
      obtain ⟨o, ho, hskipped⟩ := h.tail.skipSpace
      rw [readSeparator]
      split
      · exact .ok h (Nat.le_refl _)
      split
      · exact .error h.isBoundary.2.1 _
      · next v vs hvs =>
        rw [hvs] at hskipped
        split
        · next hquote =>
          exact answers_spacedQuoted hreaders (Nat.le_trans hu ho) hquote hskipped
        · rw [hskipped.head.2.1]
          exact .error hskipped.isBoundary.1 _

/-! ### Conditions -/

omit readers in
/-- Two trees in a row make one in their place. -/
theorem between_pair {e right : Expr} {after : Nat} (h : Between t start [left, right] after)
    (hspan : e.span = left.span.join right.span) (hsegment : SimpleList.segmentOf e = e.span)
    (hchildren : e.children = [left, right]) (htells : e.Tells t) : Between t start [e] after := by
  obtain ⟨hleft, hle, hright, hmiddle, hstop⟩ := id h
  rw [h.join] at hspan
  have hall : Between t left.span.start e.children right.span.stop := by
    rw [hchildren]
    exact ⟨hleft, Nat.le_refl _, hright, hmiddle, Nat.le_refl _⟩
  have hfills : e.Fills t left.span.start right.span.stop :=
    .of_between hspan hsegment (Expr.wellShaped_iff.1 hleft).1.cuts.isBoundary.2.2.1
      (Expr.wellShaped_iff.1 hright).1.cuts.isBoundary.2.2.2 hall htells
  exact hfills.between.mono hle hstop

theorem answers_readOr (h : Token.Stand t stop offset ts) :
    Answers t stop (fun after answer => Between t offset [answer.1] after) (readOr stop n ts) := by
  cases n with
  | zero =>
    rw [readOr, h.offsetOf_eq]
    exact .error h.isBoundary.1 _
  | succ n =>
    have hreaders := readers n (Nat.lt_succ_self n)
    rw [readOr]
    refine (hreaders.conjunction h).bind fun o ⟨first, rest⟩ hrest hfirst => ?_
    exact hreaders.moreDisjunction hfirst hrest

theorem answers_readMoreOr (hleft : Between t start [left] offset) (h : Token.Stand t stop offset ts) :
    Answers t stop (fun after answer => Between t start [answer.1] after)
      (readMoreOr stop n left ts) := by
  cases n with
  | zero =>
    rw [readMoreOr, h.offsetOf_eq]
    exact .error h.isBoundary.1 _
  | succ n =>
    have hreaders := readers n (Nat.lt_succ_self n)
    obtain ⟨o, ho, hskipped⟩ := h.skipSpace
    have hleft' := hleft.mono (Nat.le_refl _) ho
    rw [readMoreOr]
    split
    · next hnil =>
      rw [hnil] at hskipped
      exact .ok hskipped hleft'
    · next u us hus =>
      rw [hus] at hskipped
      split
      · refine (hreaders.conjunction hskipped.tail).bind fun o₁ ⟨right, rest⟩ hrest hright => ?_
        have hpair := hleft'.append (hright.mono hskipped.le_stop (Nat.le_refl _))
        exact hreaders.moreDisjunction (between_pair hpair rfl rfl rfl trivial) hrest
      · exact .ok hskipped hleft'

theorem answers_readAnd (h : Token.Stand t stop offset ts) :
    Answers t stop (fun after answer => Between t offset [answer.1] after) (readAnd stop n ts) := by
  cases n with
  | zero =>
    rw [readAnd, h.offsetOf_eq]
    exact .error h.isBoundary.1 _
  | succ n =>
    have hreaders := readers n (Nat.lt_succ_self n)
    rw [readAnd]
    refine (hreaders.negation h).bind fun o ⟨first, rest⟩ hrest hfirst => ?_
    exact hreaders.moreConjunction hfirst hrest

theorem answers_readMoreAnd (hleft : Between t start [left] offset) (h : Token.Stand t stop offset ts) :
    Answers t stop (fun after answer => Between t start [answer.1] after)
      (readMoreAnd stop n left ts) := by
  cases n with
  | zero =>
    rw [readMoreAnd, h.offsetOf_eq]
    exact .error h.isBoundary.1 _
  | succ n =>
    have hreaders := readers n (Nat.lt_succ_self n)
    obtain ⟨o, ho, hskipped⟩ := h.skipSpace
    have hleft' := hleft.mono (Nat.le_refl _) ho
    rw [readMoreAnd]
    split
    · next hnil =>
      rw [hnil] at hskipped
      exact .ok hskipped hleft'
    · next u us hus =>
      rw [hus] at hskipped
      split
      · refine (hreaders.negation hskipped.tail).bind fun o₁ ⟨right, rest⟩ hrest hright => ?_
        have hpair := hleft'.append (hright.mono hskipped.le_stop (Nat.le_refl _))
        exact hreaders.moreConjunction (between_pair hpair rfl rfl rfl trivial) hrest
      · exact .ok hskipped hleft'

theorem answers_readNot (h : Token.Stand t stop offset ts) :
    Answers t stop (fun after answer => Between t offset [answer.1] after) (readNot stop n ts) := by
  cases n with
  | zero =>
    rw [readNot, h.offsetOf_eq]
    exact .error h.isBoundary.1 _
  | succ n =>
    have hreaders := readers n (Nat.lt_succ_self n)
    obtain ⟨o, ho, hskipped⟩ := h.skipSpace
    rw [readNot]
    split
    · exact .error h.isBoundary.2.1 _
    · next u us hus =>
      rw [hus] at hskipped
      obtain ⟨-, rfl, -⟩ := hskipped.head
      have hu := hskipped.le_stop
      split
      · refine (hreaders.negation hskipped.tail).bind fun o₁ ⟨operand, rest⟩ hrest hoperand => ?_
        obtain ⟨hshaped, hle, hstop⟩ := id hoperand
        have hcuts := (Expr.wellShaped_iff.1 hshaped).1.cuts.isBoundary
        have hchildren : Between t u.start [operand] operand.span.stop :=
          ⟨hshaped, Nat.le_trans hu hle, Nat.le_refl _⟩
        have hfills : (Expr.negation ⟨u.start, operand.span.stop⟩ operand).Fills t u.start
            operand.span.stop :=
          .of_between rfl rfl hskipped.isBoundary.1 hcuts.2.2.2 hchildren trivial
        exact .ok hrest (hfills.between.mono ho hstop)
      · refine (hreaders.operand hskipped).bind fun o₁ ⟨left, rest⟩ hrest hleft => ?_
        have hleft' := hleft.between.mono ho (Nat.le_refl _)
        obtain ⟨o₂, ho₂, hspaced⟩ := hrest.skipSpace
        have hleft'' := hleft'.mono (Nat.le_refl _) ho₂
        dsimp only
        split
        · next hnil =>
          rw [hnil] at hspaced
          exact .ok hspaced hleft''
        · next v vs hvs =>
          rw [hvs] at hspaced
          split
          · exact .error h.isBoundary.2.1 _
          · next op w ws hkind hws =>
            obtain ⟨o₃, ho₃, hbehind⟩ := hspaced.tail.skipSpace
            rw [hws] at hbehind
            refine (hreaders.operand hbehind).bind fun o₄ ⟨right, rest⟩ hrest hright => ?_
            have hpair := hleft''.append
              (hright.between.mono (Nat.le_trans hspaced.le_stop ho₃) (Nat.le_refl _))
            exact .ok hrest (between_pair hpair rfl rfl rfl trivial)
          · exact .ok hspaced hleft''

theorem answers_readOperand (h : Token.Stand t stop offset (u :: ts)) :
    Answers t stop (fun after answer => answer.1.Fills t offset after) (readOperand stop n u ts) := by
  have hstart := h.isBoundary.1
  cases n with
  | zero =>
    rw [readOperand, h.head.2.1]
    exact .error hstart _
  | succ n =>
    have hreaders := readers n (Nat.lt_succ_self n)
    obtain ⟨-, rfl, -⟩ := h.head
    have hu := h.le_stop
    rw [readOperand]
    split
    · next hquote => exact hreaders.quoted hquote h
    split
    · refine (hreaders.disjunction h.tail).bind fun o ⟨inner, rest⟩ hrest hinner => ?_
      refine (answers_closeParenthesis hrest).bind_offset fun after rest hrest hafter => ?_
      exact .ok hrest (.of_between rfl rfl hstart hrest.isBoundary.1 (hinner.mono hu hafter) trivial)
    split
    · next hcall =>
      obtain ⟨v, vs, rfl⟩ := exists_of_beginsCall hcall
      refine (hreaders.arguments h.tail.tail).bind fun o ⟨arguments, rest⟩ hrest harguments => ?_
      refine (answers_closeParenthesis hrest).bind_offset fun after rest hrest hafter => ?_
      exact .ok hrest (fills_call h harguments hafter hrest)
    split
    · exact .error hstart _
    · refine (hreaders.run h).bind fun o ⟨parts, rest⟩ hrest ⟨hparts, _⟩ => ?_
      dsimp only
      split
      · exact .error hstart _
      · next hempty =>
        have hne : parts = [] → Span.empty u.start = ⟨u.start, o⟩ := fun h => by
          rw [h] at hempty
          exact absurd rfl hempty
        exact .ok hrest (hparts.fills_ofParts hstart hrest.isBoundary.1 hne)

theorem answers_readArguments (h : Token.Stand t stop offset ts) :
    Answers t stop (fun after answer => Between t offset answer.1 after) (readArguments stop n ts) := by
  cases n with
  | zero =>
    rw [readArguments, h.offsetOf_eq]
    exact .error h.isBoundary.1 _
  | succ n =>
    have hreaders := readers n (Nat.lt_succ_self n)
    obtain ⟨o, ho, hskipped⟩ := h.skipSpace
    rw [readArguments]
    split
    · exact .ok hskipped ho
    · exact (hreaders.moreArguments hskipped).mono fun _ _ h => h.mono ho (Nat.le_refl _)

theorem answers_readMoreArguments (h : Token.Stand t stop offset ts) :
    Answers t stop (fun after answer => Between t offset answer.1 after)
      (readMoreArguments stop n ts) := by
  cases n with
  | zero =>
    rw [readMoreArguments, h.offsetOf_eq]
    exact .error h.isBoundary.1 _
  | succ n =>
    have hreaders := readers n (Nat.lt_succ_self n)
    rw [readMoreArguments]
    refine (hreaders.disjunction h).bind fun o ⟨argument, rest⟩ hrest hargument => ?_
    cases rest with
    | nil => exact .ok hrest hargument
    | cons u us =>
      dsimp only
      split
      · refine (hreaders.moreArguments hrest.tail).bind fun o₁ ⟨arguments, rest⟩ hrest' harguments => ?_
        exact .ok hrest' (hargument.append (harguments.mono hrest.le_stop (Nat.le_refl _)))
      · exact .ok hrest hargument

end

/-- **What the readers make is shaped by the text.** -/
theorem readers (t : Text) (stop n : Nat) : Readers t stop n := by
  induction n using Nat.strongRecOn with
  | ind n ih =>
    exact {
      run := answers_readRun ih
      items := answers_readItems ih
      transform := answers_readTransform ih
      separator := answers_readSeparator ih
      quoted := answers_readQuoted ih
      disjunction := answers_readOr ih
      moreDisjunction := answers_readMoreOr ih
      conjunction := answers_readAnd ih
      moreConjunction := answers_readMoreAnd ih
      negation := answers_readNot ih
      operand := answers_readOperand ih
      arguments := answers_readArguments ih
      moreArguments := answers_readMoreArguments ih }

end ProjectFile.Expression
