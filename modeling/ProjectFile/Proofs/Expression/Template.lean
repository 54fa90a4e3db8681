import ProjectFile.Proofs.Expression.References

/-!
Texts with references to properties in them.

A `Template` is literal text and names in turn; as a text (`Template.text`) it has each name in the
parentheses of a reference. No sign in the literal text begins a reference or an entity, so a token
that begins there ends there, and the references of the template are all that its tokens spell
(`Template.spell_tokens`).
-/

namespace ProjectFile.Expression

/-! ## Templates -/

/-- Whether a reference or an entity begins with the sign. -/
def beginsMark (c : Char) : Bool := c == '$' || c == '@' || c == '%' || c == '&'

/-- A text in which no sign begins a reference or an entity. -/
structure Fragment where
  text : Text
  literal : text.any beginsMark = false

theorem Fragment.beginsMark_eq_false (fragment : Fragment) :
    ∀ c ∈ fragment.text, beginsMark c = false := fun c hc =>
  Bool.not_eq_true _ ▸ List.any_eq_false.1 fragment.literal c hc

/-- A name that a reference may have. -/
structure PropertyName where
  text : Text
  isIdentifier : IsIdentifier text

/-- Literal text with references between its fragments. -/
inductive Template where
  | last (fragment : Fragment)
  | reference (fragment : Fragment) (name : PropertyName) (rest : Template)

namespace Template

/-- The template as it is written. -/
def text : Template → Text
  | last fragment => fragment.text
  | reference fragment name rest =>
    fragment.text ++ '$' :: '(' :: (name.text ++ ')' :: rest.text)

/-- The template with values in the place of its references. -/
def filled (value : Text → Text) : Template → Text
  | last fragment => fragment.text
  | reference fragment name rest => fragment.text ++ (value name.text ++ rest.filled value)

/-- The references of the template where it is written from an offset on. -/
def references (offset : Nat) : Template → List Expr
  | last _ => []
  | reference fragment name rest =>
    let start := offset + fragment.text.width
    let stop := start + 2 + name.text.width + 1
    .property ⟨start, stop⟩ (some ⟨.ofSize (start + 2) name.text.width, name.text⟩) false ::
      rest.references stop

end Template

/-- No sign that ends identifiers is in one. -/
theorem IsIdentifier.not_mem {t : Text} (ht : IsIdentifier t) {d : Char} (hd : isWordChar d = false)
    (hdash : d ≠ '-') : d ∉ t := by
  obtain ⟨c, w, rfl, hc, hw⟩ := ht
  rw [List.mem_cons, not_or]
  refine ⟨fun heq => ?_, fun hmem => ?_⟩
  · obtain rfl := heq
    rw [isLetter, Bool.or_eq_true] at hc
    rw [isWordChar, Bool.or_eq_false_iff, Char.isAlphanum, Bool.or_eq_false_iff] at hd
    simp [hd.1.1, hd.2] at hc
  · obtain ⟨front, back, rfl⟩ := List.append_of_mem hmem
    rw [identifierLength_before hd hdash, List.length_append, List.length_cons] at hw
    have hle := identifierLength_le front
    omega

/-- There is no entity in a template. -/
theorem Template.not_mem_amp (τ : Template) : '&' ∉ τ.text := by
  have hfragment (fragment : Fragment) : '&' ∉ fragment.text := fun hmem =>
    absurd (fragment.beginsMark_eq_false '&' hmem) (by decide)
  induction τ with
  | last fragment => exact hfragment fragment
  | reference fragment name rest ih =>
    have hname : '&' ∉ name.text := name.isIdentifier.not_mem (by decide) (by decide)
    simp [text, hfragment fragment, hname, ih]

/-! ## Their tokens -/

section

variable (w : Text) {rest : Text} (hrest : ∀ d ∈ rest.head?, d = '$')

include hrest

/-- What goes on from a fragment ends where a reference begins. -/
theorem lengthWhile_fragment {p : Char → Bool} (hp : p '$' = false) :
    Text.lengthWhile p (w ++ rest) ≤ w.length := by
  cases rest with
  | nil =>
    rw [List.append_nil]
    exact Text.lengthWhile_le p w
  | cons d rest =>
    rw [hrest d rfl, Text.lengthWhile_before hp]
    exact Text.lengthWhile_le p w

theorem identifierLength_fragment : identifierLength (w ++ rest) ≤ w.length := by
  cases rest with
  | nil =>
    rw [List.append_nil]
    exact identifierLength_le w
  | cons d rest =>
    rw [hrest d rfl, identifierLength_before rfl (by decide)]
    exact identifierLength_le w

/-- A token that begins in a fragment begins no reference, and ends in front of the next one. -/
theorem readToken_fragment {c : Char} (hc : beginsMark c = false) :
    (readToken c (w ++ rest)).1.beginsReference = false ∧
      (readToken c (w ++ rest)).2 ≤ w.length + 1 := by
  -- A second character is one of the fragment if it is no `$`.
  have hpair (e : Char) (he : e ≠ '$') (k l : TokenKind) (hk : k.beginsReference = false)
      (hl : l.beginsReference = false) :
      let read : TokenKind × Nat := if (w ++ rest).head? == some e then (k, 2) else (l, 1)
      read.1.beginsReference = false ∧ read.2 ≤ w.length + 1 := by
    intro read
    cases w with
    | nil =>
      have hne : ¬ ([] ++ rest).head? = some e := fun h => he (hrest e h)
      dsimp only [read]
      rw [if_neg (by simpa using hne)]
      exact ⟨hl, Nat.le_refl 1⟩
    | cons d w =>
      dsimp only [read]
      rw [List.length_cons]
      split
      · exact ⟨hk, by omega⟩
      · exact ⟨hl, by omega⟩
  unfold readToken
  split
  case h_1 => cases hc
  case h_2 => cases hc
  case h_3 => cases hc
  case h_7 => exact hpair '=' (by decide) _ _ rfl rfl
  case h_8 => exact hpair '=' (by decide) _ _ rfl rfl
  case h_9 => exact hpair '=' (by decide) _ _ rfl rfl
  case h_10 => exact hpair '=' (by decide) _ _ rfl rfl
  case h_11 => exact hpair '>' (by decide) _ _ rfl rfl
  case h_15 => cases hc
  case h_16 =>
    dsimp only
    split
    · exact ⟨rfl, Nat.succ_le_succ (lengthWhile_fragment w hrest (by decide))⟩
    split
    · exact ⟨rfl, Nat.succ_le_succ (identifierLength_fragment w hrest)⟩
    split
    · exact ⟨rfl, Nat.succ_le_succ (lengthWhile_fragment w hrest (by decide))⟩
    · exact ⟨rfl, Nat.succ_le_succ (Nat.zero_le _)⟩
  all_goals exact ⟨rfl, Nat.succ_le_succ (Nat.zero_le _)⟩

end

open Token (Spell)

/-- The tokens of a fragment spell nothing in front of what follows it. -/
theorem spell_fragment {w rest : Text} {es : List Expr} (hw : ∀ c ∈ w, beginsMark c = false)
    (hrest : ∀ d ∈ rest.head?, d = '$') {offset : Nat}
    (h : Spell (tokensFrom (offset + w.width) 0 rest) es) {skip : Nat} (hskip : skip ≤ w.length) :
    Spell (tokensFrom offset skip (w ++ rest)) es := by
  induction w generalizing offset skip with
  | nil =>
    obtain rfl : skip = 0 := Nat.le_zero.1 hskip
    exact h
  | cons c w ih =>
    rw [List.forall_mem_cons] at hw
    rw [Text.width_cons, ← Nat.add_assoc] at h
    rw [List.length_cons] at hskip
    rw [List.cons_append]
    cases skip with
    | succ skip =>
      rw [tokensFrom]
      exact ih hw.2 h (Nat.le_of_succ_le_succ hskip)
    | zero =>
      obtain ⟨hplain, hle⟩ := readToken_fragment w hrest hw.1
      rw [tokensFrom]
      exact Spell.prepend (ih hw.2 h (by omega)) hplain

/-- The tokens of a reference are its sign, its name and the parenthesis behind it. -/
theorem tokensFrom_reference (name : PropertyName) (offset : Nat) (rest : Text) :
    tokensFrom offset 0 ('$' :: '(' :: (name.text ++ ')' :: rest)) =
      ⟨.propertyOpen, offset, ['$', '(']⟩ :: ⟨.identifier, offset + 2, name.text⟩ ::
        ⟨.rightParen, offset + 2 + name.text.width, [')']⟩ ::
          tokensFrom (offset + 2 + name.text.width + 1) 0 rest := by
  obtain ⟨text, c, w, rfl, hc, hw⟩ := name
  have hopen : readToken '$' (['('] ++ (c :: w ++ ')' :: rest)) = (.propertyOpen, 2) := rfl
  have hname : readToken c (w ++ ')' :: rest) = (.identifier, w.length + 1) := by
    rw [readToken_letter hc, identifierLength_before rfl (by decide), hw]
  have hclose : readToken ')' ([] ++ rest) = (.rightParen, 1) := rfl
  have hfirst := tokensFrom_cons hopen (by decide) offset
  have hsecond := tokensFrom_cons hname (by decide) (offset + 2)
  have hthird := tokensFrom_cons hclose (by decide) (offset + 2 + Text.width (c :: w))
  rw [Nat.add_assoc (offset + 2), ← Text.width_cons] at hsecond
  exact hfirst.trans (congrArg _ (hsecond.trans (congrArg _ hthird)))

namespace Template

theorem spell_tokensFrom (τ : Template) (offset : Nat) :
    Spell (tokensFrom offset 0 τ.text) (τ.references offset) := by
  induction τ generalizing offset with
  | last fragment =>
    have hend : Spell (tokensFrom (offset + fragment.text.width) 0 []) [] := by
      rw [tokensFrom]
      exact .nil
    have hlast : ∀ d ∈ ([] : Text).head?, d = '$' := fun d hd => absurd hd (Option.not_mem_none d)
    rw [text, ← List.append_nil fragment.text]
    exact spell_fragment fragment.beginsMark_eq_false hlast hend (Nat.zero_le _)
  | reference fragment name rest ih =>
    refine spell_fragment fragment.beginsMark_eq_false (fun d hd => ?_) ?_ (Nat.zero_le _)
    · cases hd
      rfl
    · rw [tokensFrom_reference]
      exact .reference rfl List.mem_cons_self rfl rfl (ih _)

/-- **The tokens of a template spell its references.** -/
theorem spell_tokens (τ : Template) : Spell (tokens τ.text) (τ.references 0) :=
  τ.spell_tokensFrom 0

end Template

end ProjectFile.Expression
