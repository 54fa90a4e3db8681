import ProjectFile.Expression.Reading

/-!
The count of calls that the readers of expressions take is no limit.

A call inside another has a token less to read, or is on the way from a disjunction down to an operand
or a text run; so eight calls for each token are enough. `Settled` is what is kept from reader to
reader: two counts that are enough come to the same end, and this leaves no more tokens than there
were. The readers that call one another are settled together (`settles`), and no text is reported as
nested too deeply (`notGivenUp_parse`).
-/

namespace ProjectFile.Expression

/-! ## Ends -/

/-- Whether a reader came to an end by itself, with at most `k` tokens left. -/
def Ends {α : Type} (k : Nat) : Except ParseError (Taken α) → Prop
  | .ok answer => answer.2.length ≤ k
  | .error stopped => stopped.problem ≠ .nestedTooDeeply

/-- Whether a reader comes to the same end twice, with at most `k` tokens left. -/
def Settled {α : Type} (k : Nat) (x y : Except ParseError (Taken α)) : Prop := x = y ∧ Ends k x

namespace Settled

variable {α β : Type} {k l : Nat}

theorem ok {answer : Taken α} (h : answer.2.length ≤ k) : Settled k (.ok answer) (.ok answer) :=
  ⟨rfl, h⟩

theorem error {stopped : ParseError} (h : stopped.problem ≠ .nestedTooDeeply) :
    Settled k (.error stopped : Except ParseError (Taken α)) (.error stopped) :=
  ⟨rfl, h⟩

theorem mono {x y : Except ParseError (Taken α)} (h : Settled k x y) (hle : k ≤ l) : Settled l x y := by
  obtain ⟨rfl, hends⟩ := h
  cases x with
  | error stopped => exact ⟨rfl, hends⟩
  | ok answer => exact ⟨rfl, Nat.le_trans hends hle⟩

/-- One reader after another. -/
theorem bind {x y : Except ParseError (Taken α)} {f g : Taken α → Except ParseError (Taken β)}
    (h : Settled k x y)
    (hfg : ∀ answer : Taken α, answer.2.length ≤ k → Settled l (f answer) (g answer)) :
    Settled l (x >>= f) (y >>= g) := by
  obtain ⟨rfl, hends⟩ := h
  cases x with
  | error stopped => exact ⟨rfl, hends⟩
  | ok answer => exact hfg answer hends

end Settled

/-! ## What does not call itself -/

section

variable {stop : Nat} (ts : List Token)

theorem length_skipSpace_le : (skipSpace ts).length ≤ ts.length :=
  (List.dropWhile_suffix _).length_le

theorem length_takeSymbol_le : (takeSymbol ts).2.length ≤ ts.length := by
  cases ts with
  | nil => exact Nat.le_refl _
  | cons t ts =>
    rw [takeSymbol]
    split
    · exact Nat.le_succ _
    · exact Nat.le_refl _

/-- Nor does a name with space around it leave more tokens. -/
theorem length_named_le : (skipSpace (takeSymbol (skipSpace ts)).2).length ≤ ts.length :=
  Nat.le_trans (length_skipSpace_le _) (Nat.le_trans (length_takeSymbol_le _) (length_skipSpace_le ts))

theorem settled_closeConstruct (construct : Construct) :
    Settled ts.length (closeConstruct stop construct ts) (closeConstruct stop construct ts) := by
  cases ts with
  | nil => exact .error nofun
  | cons t ts =>
    rw [closeConstruct]
    split
    · exact .ok (Nat.le_succ _)
    · exact .error nofun

theorem settled_closeParenthesis :
    Settled ts.length (closeParenthesis stop ts) (closeParenthesis stop ts) := by
  cases ts with
  | nil => exact .error nofun
  | cons t ts =>
    rw [closeParenthesis]
    split
    · exact .ok (Nat.le_succ _)
    · exact .error nofun

variable {ts} in
theorem length_of_skipBalanced {depth after : Nat} {inQuote : Bool} {rest : List Token}
    (h : skipBalanced depth inQuote ts = some (after, rest)) : rest.length ≤ ts.length := by
  induction ts generalizing depth inQuote with
  | nil => cases h
  | cons t ts ih =>
    have hbehind {depth : Nat} {inQuote : Bool}
        (h : skipBalanced depth inQuote ts = some (after, rest)) : rest.length ≤ ts.length + 1 :=
      Nat.le_succ_of_le (ih h)
    rw [skipBalanced] at h
    split at h
    · exact hbehind h
    split at h
    · exact hbehind h
    split at h
    · exact hbehind h
    split at h
    · split at h
      · cases h
        exact Nat.le_succ _
      · exact hbehind h
    · exact hbehind h

theorem settled_readProperty (start : Nat) :
    Settled ts.length (readProperty stop start ts) (readProperty stop start ts) := by
  have hnamed := length_named_le ts
  unfold readProperty
  extract_lets named rest isFunction
  split
  · split
    · next after left hskip => exact .ok (Nat.le_trans (length_of_skipBalanced hskip) hnamed)
    · exact .error nofun
  · exact (settled_closeConstruct rest _).bind fun _ hrest => .ok (Nat.le_trans hrest hnamed)

theorem settled_readMetadata (start : Nat) :
    Settled ts.length (readMetadata stop start ts) (readMetadata stop start ts) := by
  have hnamed := length_named_le ts
  unfold readMetadata
  dsimp only
  split
  · next t rest hrest =>
    rw [hrest, List.length_cons] at hnamed
    split
    · have hsecond := length_named_le rest
      refine (settled_closeConstruct _ _).bind fun answer hleft => .ok ?_
      have hle : answer.2.length ≤ rest.length := Nat.le_trans hleft hsecond
      exact Nat.le_trans hle (Nat.le_of_succ_le hnamed)
    · exact (settled_closeConstruct (t :: rest) _).bind fun _ hleft => .ok (Nat.le_trans hleft hnamed)
  · exact .error nofun

end

/-! ## What calls itself -/

/-- What the readers settle with two counts of calls: eight for each token are enough, and as many
more as there are readers that call one another before a token is taken. -/
structure Settles (stop n m : Nat) : Prop where
  run : ∀ {ends : TokenKind → Bool} {ts : List Token}, 8 * ts.length ≤ min n m →
    Settled ts.length (readRun stop ends n ts) (readRun stop ends m ts)
  items : ∀ {start : Nat} {ts : List Token}, 8 * ts.length + 1 ≤ min n m →
    Settled ts.length (readItems stop n start ts) (readItems stop m start ts)
  transform : ∀ {ts : List Token}, 8 * ts.length ≤ min n m →
    Settled ts.length (readTransform stop n ts) (readTransform stop m ts)
  separator : ∀ {ts : List Token}, 8 * ts.length ≤ min n m →
    Settled ts.length (readSeparator stop n ts) (readSeparator stop m ts)
  quoted : ∀ {start : Nat} {ts : List Token}, 8 * ts.length + 1 ≤ min n m →
    Settled ts.length (readQuoted stop n start ts) (readQuoted stop m start ts)
  disjunction : ∀ {ts : List Token}, 8 * ts.length + 4 ≤ min n m →
    Settled ts.length (readOr stop n ts) (readOr stop m ts)
  moreDisjunction : ∀ {left : Expr} {ts : List Token}, 8 * ts.length + 1 ≤ min n m →
    Settled ts.length (readMoreOr stop n left ts) (readMoreOr stop m left ts)
  conjunction : ∀ {ts : List Token}, 8 * ts.length + 3 ≤ min n m →
    Settled ts.length (readAnd stop n ts) (readAnd stop m ts)
  moreConjunction : ∀ {left : Expr} {ts : List Token}, 8 * ts.length + 1 ≤ min n m →
    Settled ts.length (readMoreAnd stop n left ts) (readMoreAnd stop m left ts)
  negation : ∀ {ts : List Token}, 8 * ts.length + 2 ≤ min n m →
    Settled ts.length (readNot stop n ts) (readNot stop m ts)
  operand : ∀ {t : Token} {ts : List Token}, 8 * (ts.length + 1) + 1 ≤ min n m →
    Settled (ts.length + 1) (readOperand stop n t ts) (readOperand stop m t ts)
  arguments : ∀ {ts : List Token}, 8 * ts.length + 6 ≤ min n m →
    Settled ts.length (readArguments stop n ts) (readArguments stop m ts)
  moreArguments : ∀ {ts : List Token}, 8 * ts.length + 5 ≤ min n m →
    Settled ts.length (readMoreArguments stop n ts) (readMoreArguments stop m ts)

section

variable {stop n m : Nat} {ts : List Token} (settles : Settles stop n m)

include settles

/-! ### Text runs and item references -/

/-- A run with a part in front of it. -/
theorem settled_partAndRun {ends : TokenKind → Bool} (part : Expr) (h : 8 * ts.length ≤ min n m) :
    Settled ts.length
      (do
        let (parts, rest) ← readRun stop ends n ts
        return (part :: parts, rest))
      (do
        let (parts, rest) ← readRun stop ends m ts
        return (part :: parts, rest)) :=
  (settles.run h).bind fun _ hrest => .ok hrest

theorem settled_readRun {ends : TokenKind → Bool} (h : 8 * ts.length ≤ min n m + 1) :
    Settled ts.length (readRun stop ends (n + 1) ts) (readRun stop ends (m + 1) ts) := by
  cases ts with
  | nil => exact .ok (Nat.le_refl _)
  | cons t ts =>
    rw [List.length_cons] at h ⊢
    -- What is left behind a reference is no longer than what was behind its opener.
    have henough {k : Nat} (hle : k ≤ ts.length) : 8 * k ≤ min n m ∧ k ≤ ts.length + 1 := by omega
    rw [readRun, readRun]
    split
    · exact .ok (Nat.le_refl _)
    split
    · exact (settled_readProperty ts _).bind fun answer hle =>
        (settled_partAndRun settles answer.1 (henough hle).1).mono (henough hle).2
    · exact (settles.items (by omega)).bind fun answer hle =>
        (settled_partAndRun settles answer.1 (henough hle).1).mono (henough hle).2
    · exact (settled_readMetadata ts _).bind fun answer hle =>
        (settled_partAndRun settles answer.1 (henough hle).1).mono (henough hle).2
    · exact (settles.run (by omega)).bind fun _ hleft => .ok (Nat.le_succ_of_le hleft)

theorem settled_readItems {start : Nat} (h : 8 * ts.length ≤ min n m) :
    Settled ts.length (readItems stop (n + 1) start ts) (readItems stop (m + 1) start ts) := by
  have hnamed := length_named_le ts
  rw [readItems, readItems]
  refine (settles.transform (by omega)).bind fun ⟨transform, rest⟩ htransform => ?_
  dsimp only at htransform
  refine (settles.separator (by omega)).bind fun ⟨separator, rest⟩ hseparator => ?_
  refine (settled_closeConstruct rest _).bind fun ⟨after, rest⟩ hrest => .ok ?_
  dsimp only at *
  omega

/-! ### Quoted strings, transforms and separators -/

theorem settled_readQuoted {start : Nat} (h : 8 * ts.length ≤ min n m) :
    Settled ts.length (readQuoted stop (n + 1) start ts) (readQuoted stop (m + 1) start ts) := by
  rw [readQuoted, readQuoted]
  refine (settles.run h).bind fun ⟨parts, rest⟩ hrest => ?_
  cases rest with
  | nil => exact .error nofun
  | cons t rest => exact .ok (Nat.le_of_succ_le hrest)

/-- A quoted string with space behind it. -/
theorem settled_spacedQuoted {start : Nat} (h : 8 * ts.length + 1 ≤ min n m) :
    Settled ts.length
      (do
        let (e, rest) ← readQuoted stop n start ts
        return (some e, skipSpace rest))
      (do
        let (e, rest) ← readQuoted stop m start ts
        return (some e, skipSpace rest)) :=
  (settles.quoted h).bind fun answer hrest => .ok (Nat.le_trans (length_skipSpace_le answer.2) hrest)

theorem settled_readTransform (h : 8 * ts.length ≤ min n m + 1) :
    Settled ts.length (readTransform stop (n + 1) ts) (readTransform stop (m + 1) ts) := by
  cases ts with
  | nil => exact .ok (Nat.le_refl _)
  | cons t ts =>
    have hspace := length_skipSpace_le ts
    rw [List.length_cons] at h ⊢
    rw [readTransform, readTransform]
    split
    · exact .ok (Nat.le_refl _)
    split
    · exact .error nofun
    · next u rest hu =>
      rw [hu, List.length_cons] at hspace
      split
      · exact (settled_spacedQuoted settles (by omega)).mono (by omega)
      split
      · have hdrop : (rest.drop 1).length ≤ rest.length := by
          rw [List.length_drop]
          exact Nat.sub_le _ _
        refine (settles.arguments (by omega)).bind fun ⟨arguments, rest⟩ harguments => ?_
        refine (settled_closeConstruct rest _).bind fun ⟨after, rest⟩ hrest => .ok ?_
        have hleft := length_skipSpace_le rest
        dsimp only at *
        omega
      · exact .error nofun

theorem settled_readSeparator (h : 8 * ts.length ≤ min n m + 1) :
    Settled ts.length (readSeparator stop (n + 1) ts) (readSeparator stop (m + 1) ts) := by
  cases ts with
  | nil => exact .ok (Nat.le_refl _)
  | cons t ts =>
    have hspace := length_skipSpace_le ts
    rw [List.length_cons] at h ⊢
    rw [readSeparator, readSeparator]
    split
    · exact .ok (Nat.le_refl _)
    split
    · exact .error nofun
    · next u rest hu =>
      rw [hu, List.length_cons] at hspace
      split
      · exact (settled_spacedQuoted settles (by omega)).mono (by omega)
      · exact .error nofun

/-! ### Conditions -/

theorem settled_readOr (h : 8 * ts.length + 3 ≤ min n m) :
    Settled ts.length (readOr stop (n + 1) ts) (readOr stop (m + 1) ts) := by
  rw [readOr, readOr]
  refine (settles.conjunction h).bind fun ⟨first, rest⟩ hrest => ?_
  dsimp only at hrest
  exact (settles.moreDisjunction (by omega)).mono hrest

theorem settled_readMoreOr {left : Expr} (h : 8 * ts.length ≤ min n m) :
    Settled ts.length (readMoreOr stop (n + 1) left ts) (readMoreOr stop (m + 1) left ts) := by
  have hspace := length_skipSpace_le ts
  rw [readMoreOr, readMoreOr]
  split
  · exact .ok (Nat.zero_le _)
  · next t rest ht =>
    rw [ht, List.length_cons] at hspace
    split
    · refine (settles.conjunction (by omega)).bind fun ⟨right, rest⟩ hrest => ?_
      dsimp only at hrest
      exact (settles.moreDisjunction (by omega)).mono (by omega)
    · exact .ok hspace

theorem settled_readAnd (h : 8 * ts.length + 2 ≤ min n m) :
    Settled ts.length (readAnd stop (n + 1) ts) (readAnd stop (m + 1) ts) := by
  rw [readAnd, readAnd]
  refine (settles.negation h).bind fun ⟨first, rest⟩ hrest => ?_
  dsimp only at hrest
  exact (settles.moreConjunction (by omega)).mono hrest

theorem settled_readMoreAnd {left : Expr} (h : 8 * ts.length ≤ min n m) :
    Settled ts.length (readMoreAnd stop (n + 1) left ts) (readMoreAnd stop (m + 1) left ts) := by
  have hspace := length_skipSpace_le ts
  rw [readMoreAnd, readMoreAnd]
  split
  · exact .ok (Nat.zero_le _)
  · next t rest ht =>
    rw [ht, List.length_cons] at hspace
    split
    · refine (settles.negation (by omega)).bind fun ⟨right, rest⟩ hrest => ?_
      dsimp only at hrest
      exact (settles.moreConjunction (by omega)).mono (by omega)
    · exact .ok hspace

theorem settled_readNot (h : 8 * ts.length + 1 ≤ min n m) :
    Settled ts.length (readNot stop (n + 1) ts) (readNot stop (m + 1) ts) := by
  have hspace := length_skipSpace_le ts
  rw [readNot, readNot]
  split
  · exact .error nofun
  · next t rest ht =>
    rw [ht, List.length_cons] at hspace
    split
    · exact (settles.negation (by omega)).bind fun _ hrest =>
        .ok (Nat.le_trans hrest (Nat.le_of_succ_le hspace))
    · refine (settles.operand (by omega)).bind fun ⟨left, rest⟩ hrest => ?_
      have hbehind := length_skipSpace_le rest
      dsimp only at hrest ⊢
      split
      · exact .ok (Nat.zero_le _)
      · next u us hu =>
        rw [hu, List.length_cons] at hbehind
        have hskipped := length_skipSpace_le us
        split
        · exact .error nofun
        · next op v vs _ hv =>
          rw [hv, List.length_cons] at hskipped
          exact (settles.operand (by omega)).bind fun _ hleft => .ok (Nat.le_trans hleft (by omega))
        · exact .ok (Nat.le_trans hbehind (Nat.le_trans hrest hspace))

theorem settled_readOperand {t : Token} (h : 8 * (ts.length + 1) ≤ min n m) :
    Settled (ts.length + 1) (readOperand stop (n + 1) t ts) (readOperand stop (m + 1) t ts) := by
  rw [readOperand, readOperand]
  split
  · exact (settles.quoted (by omega)).mono (Nat.le_succ _)
  split
  · refine (settles.disjunction (by omega)).bind fun ⟨inner, rest⟩ hrest => ?_
    refine (settled_closeParenthesis rest).bind fun _ hleft => .ok ?_
    exact Nat.le_succ_of_le (Nat.le_trans hleft hrest)
  split
  · have hdrop : (ts.drop 1).length ≤ ts.length := by
      rw [List.length_drop]
      exact Nat.sub_le _ _
    refine (settles.arguments (by omega)).bind fun ⟨arguments, rest⟩ hrest => ?_
    refine (settled_closeParenthesis rest).bind fun _ hleft => .ok ?_
    exact Nat.le_succ_of_le (Nat.le_trans hleft (Nat.le_trans hrest hdrop))
  split
  · exact .error nofun
  · refine (settles.run (by rwa [List.length_cons])).bind fun ⟨parts, rest⟩ hrest => ?_
    dsimp only
    split
    · exact .error nofun
    · exact .ok hrest

theorem settled_readArguments (h : 8 * ts.length + 5 ≤ min n m) :
    Settled ts.length (readArguments stop (n + 1) ts) (readArguments stop (m + 1) ts) := by
  have hspace := length_skipSpace_le ts
  rw [readArguments, readArguments]
  split
  · exact .ok hspace
  · exact (settles.moreArguments (by omega)).mono hspace

theorem settled_readMoreArguments (h : 8 * ts.length + 4 ≤ min n m) :
    Settled ts.length (readMoreArguments stop (n + 1) ts) (readMoreArguments stop (m + 1) ts) := by
  rw [readMoreArguments, readMoreArguments]
  refine (settles.disjunction h).bind fun ⟨argument, rest⟩ hrest => ?_
  cases rest with
  | nil => exact .ok (Nat.zero_le _)
  | cons t rest =>
    rw [List.length_cons] at hrest
    dsimp only
    split
    · exact (settles.moreArguments (by omega)).bind fun _ hleft =>
        .ok (Nat.le_trans hleft (Nat.le_of_succ_le hrest))
    · exact .ok hrest

end

/-- Where no calls may be made, there is nothing to settle but the end of the tokens. -/
theorem settles_of_min_eq_zero {stop n m : Nat} (hzero : min n m = 0) : Settles stop n m where
  run {ends ts} h := by
    obtain rfl : ts = [] := List.length_eq_zero_iff.1 (by omega)
    rw [readRun, readRun]
    exact .ok (Nat.le_refl _)
  transform {ts} h := by
    obtain rfl : ts = [] := List.length_eq_zero_iff.1 (by omega)
    rw [readTransform, readTransform]
    exact .ok (Nat.le_refl _)
  separator {ts} h := by
    obtain rfl : ts = [] := List.length_eq_zero_iff.1 (by omega)
    rw [readSeparator, readSeparator]
    exact .ok (Nat.le_refl _)
  items h := by omega
  quoted h := by omega
  disjunction h := by omega
  moreDisjunction h := by omega
  conjunction h := by omega
  moreConjunction h := by omega
  negation h := by omega
  operand h := by omega
  arguments h := by omega
  moreArguments h := by omega

/-- **Counts of calls that are enough come to the same end.** -/
theorem settles (stop n m : Nat) : Settles stop n m := by
  induction n generalizing m with
  | zero => exact settles_of_min_eq_zero (Nat.zero_min m)
  | succ n ih =>
    cases m with
    | zero => exact settles_of_min_eq_zero (Nat.min_zero _)
    | succ m =>
      have hmin : min (n + 1) (m + 1) = min n m + 1 := Nat.succ_min_succ n m
      exact {
        run := fun h => settled_readRun (ih m) (by omega)
        items := fun h => settled_readItems (ih m) (by omega)
        transform := fun h => settled_readTransform (ih m) (by omega)
        separator := fun h => settled_readSeparator (ih m) (by omega)
        quoted := fun h => settled_readQuoted (ih m) (by omega)
        disjunction := fun h => settled_readOr (ih m) (by omega)
        moreDisjunction := fun h => settled_readMoreOr (ih m) (by omega)
        conjunction := fun h => settled_readAnd (ih m) (by omega)
        moreConjunction := fun h => settled_readMoreAnd (ih m) (by omega)
        negation := fun h => settled_readNot (ih m) (by omega)
        operand := fun h => settled_readOperand (ih m) (by omega)
        arguments := fun h => settled_readArguments (ih m) (by omega)
        moreArguments := fun h => settled_readMoreArguments (ih m) (by omega) }

/-! ## Whole texts -/

section

variable {stop n : Nat} {ts : List Token}

/-- The limit is enough for a condition, and for a text run the more so. -/
theorem enough_of_stepLimit_le (h : stepLimit ts ≤ n) :
    8 * ts.length + 4 ≤ min n (stepLimit ts) ∧ 8 * ts.length ≤ min n (stepLimit ts) := by
  rw [stepLimit] at h ⊢
  omega

/-- **More calls than the limit make no difference** to the reading of a condition. -/
theorem readOr_eq_stepLimit (h : stepLimit ts ≤ n) : readOr stop n ts = readOr stop (stepLimit ts) ts :=
  ((settles stop n _).disjunction (enough_of_stepLimit_le h).1).1

/-- Nor do they to the reading of a text run. -/
theorem readRun_eq_stepLimit {ends : TokenKind → Bool} (h : stepLimit ts ≤ n) :
    readRun stop ends n ts = readRun stop ends (stepLimit ts) ts :=
  ((settles stop n _).run (enough_of_stepLimit_le h).2).1

end

/-- Whether reading was not given up for its nesting. -/
def NotGivenUp {α : Type} (x : Except ParseError α) : Prop :=
  ∀ offset, x ≠ .error ⟨.nestedTooDeeply, offset⟩

namespace NotGivenUp

variable {α β : Type}

theorem ok (a : α) : NotGivenUp (.ok a) := nofun

theorem of_ends {k : Nat} {x : Except ParseError (Taken α)} (h : Ends k x) : NotGivenUp x := by
  rintro offset rfl
  exact h rfl

theorem bind {x : Except ParseError α} {f : α → Except ParseError β} (hx : NotGivenUp x)
    (hf : ∀ a, NotGivenUp (f a)) : NotGivenUp (x >>= f) := by
  cases x with
  | ok a => exact hf a
  | error stopped =>
    rintro offset heq
    cases heq
    exact hx offset rfl

end NotGivenUp

theorem notGivenUp_readCondition (stop : Nat) (ts : List Token) : NotGivenUp (readCondition stop ts) := by
  have hread : NotGivenUp (readOr stop (stepLimit ts) ts) :=
    .of_ends ((settles stop _ _).disjunction (enough_of_stepLimit_le (Nat.le_refl _)).1).2
  refine hread.bind fun ⟨e, rest⟩ => ?_
  cases rest with
  | nil => exact .ok e
  | cons t rest => exact nofun

theorem notGivenUp_readText (segment : Span) (ts : List Token) : NotGivenUp (readText segment ts) := by
  have hread : NotGivenUp (readRun segment.stop (fun _ => false) (stepLimit ts) ts) :=
    .of_ends ((settles segment.stop _ _).run (enough_of_stepLimit_le (Nat.le_refl _)).2).2
  exact hread.bind fun answer => .ok _

theorem notGivenUp_read (s : Segment) : NotGivenUp s.read := by
  have htext := notGivenUp_readText s.span s.tokens
  unfold Segment.read
  split
  · exact notGivenUp_readCondition _ _
  · split
    · exact .ok _
    · exact htext
  · exact htext

theorem notGivenUp_readItemsOf (segments : List Segment) : NotGivenUp (readItemsOf segments) := by
  induction segments with
  | nil => exact .ok []
  | cons s segments ih =>
    rw [readItemsOf]
    exact (notGivenUp_read s).bind fun e => ih.bind fun es => .ok _

/-- **No text is nested too deeply**, neither a condition nor any other value. -/
theorem notGivenUp_parse (t : Text) : NotGivenUp (parseValue t) ∧ NotGivenUp (parseCondition t) := by
  constructor
  · unfold parseValue
    split
    · exact notGivenUp_read _
    · exact (notGivenUp_readItemsOf _).bind fun es => .ok _
  · unfold parseCondition
    dsimp only
    split
    · exact .ok _
    · exact notGivenUp_readCondition _ _

end ProjectFile.Expression
