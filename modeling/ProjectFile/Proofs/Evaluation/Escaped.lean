import ProjectFile.Proofs.Evaluation.Entities
import ProjectFile.Proofs.Expression.Decoded
import ProjectFile.Proofs.Expression.Lexemes

/-!
Conditions as they stand in the file, and as they are evaluated.

The tokens of an expression are read from a text in which some characters are escaped, but a condition
is evaluated after its references are decoded. If the text is `Escaped`, both have the same tokens but
for the texts of quotes and operators (`Escaped.matched_tokens`), so they are read as the same
condition (`parseCondition_unescape`).

A token is followed from the left. Where it begins with a reference it is that of the sign encoded
(`readToken_reference`), and it ends before the next reference, decoded or not (`readToken_before`).

An arrow is no such token: in `-&gt;` it is read only where it is decoded
(`parseCondition_escapedArrow`).
-/

namespace ProjectFile.Evaluation

open Expression

/-! ## The tokens of an escaped text -/

/-- An escaped text is decoded from its first `&` on, to some sign. -/
theorem Escaped.exists_front {t : Text} (h : Escaped t) : ('&' ∉ t ∧ unescape t = t) ∨
    ∃ w s d u, t = w ++ '&' :: s ∧ '&' ∉ w ∧ d ∈ boundarySigns ∧ unescape t = w ++ d :: u ∧
      (d = '>' → "gt;".toList <+: s) := by
  by_cases hamp : '&' ∈ t
  · obtain ⟨w, s, rfl, hw⟩ := List.eq_append_cons_of_mem hamp
    have hrest : Escaped ('&' :: s) := h.of_append
    refine .inr ⟨w, s, ?_⟩
    rw [unescape_append hw]
    cases hname : referenceName? s with
    | none => exact ⟨'&', _, rfl, hw, by decide, by rw [unescape_amp_of_none hname], nofun⟩
    | some name =>
      obtain ⟨d, rest, rfl, hdecode, hsign⟩ := hrest.exists_reference hname
      refine ⟨d, _, rfl, hw, ?_, by rw [hdecode], ?_⟩
      · rcases hsign with ⟨-, rfl⟩ | ⟨-, rfl⟩ | ⟨-, rfl⟩ <;> decide
      · rintro rfl
        rcases hsign with ⟨-, heq⟩ | ⟨rfl, -⟩ | ⟨-, heq⟩
        · cases heq
        · exact ⟨rest, rfl⟩
        · cases heq
  · have hself := unescape_append hamp []
    rw [List.append_nil] at hself
    exact .inl ⟨hamp, hself.trans (List.append_nil t)⟩

/-- A reference to an angle bracket or the apostrophe is read as the sign it stands for, with what
follows. -/
theorem readToken_reference {name : Text} {d : Char}
    (h : name = "lt".toList ∧ d = '<' ∨ name = "gt".toList ∧ d = '>' ∨
      name = "apos".toList ∧ d = '\'') (t : Text) :
    readToken '&' (name ++ ';' :: t) =
      ((readToken d t).1, name.length + 1 + (readToken d t).2) := by
  -- Which operator it is depends on whether an equals sign follows.
  cases t with
  | nil => rcases h with ⟨rfl, rfl⟩ | ⟨rfl, rfl⟩ | ⟨rfl, rfl⟩ <;> rfl
  | cons c t =>
    by_cases hc : c = '='
    · subst hc
      rcases h with ⟨rfl, rfl⟩ | ⟨rfl, rfl⟩ | ⟨rfl, rfl⟩ <;> rfl
    · rcases h with ⟨rfl, rfl⟩ | ⟨rfl, rfl⟩ | ⟨rfl, rfl⟩
      · simp [readToken, readEntity, operatorEntities, hc, Ne.symm hc]
      · simp [readToken, readEntity, operatorEntities, hc, Ne.symm hc]
      · rfl

theorem isRead_sign {d : Char} (hd : d = '<' ∨ d = '>' ∨ d = '\'') (t : Text) :
    (readToken d t).1.isRead = false := by
  rcases hd with rfl | rfl | rfl
  · show (if _ then _ else _ : TokenKind × Nat).1.isRead = false
    split <;> rfl
  · show (if _ then _ else _ : TokenKind × Nat).1.isRead = false
    split <;> rfl
  · rfl

/-- The token that begins with a character is the same once what follows is decoded, and nothing of
it is decoded but the character itself. -/
theorem Escaped.exists_word {t : Text} (h : Escaped t) (c : Char)
    (harrow : ¬ "-&gt;".toList <+: c :: t) : ∃ w left, t = w ++ left ∧ '&' ∉ w ∧
      (readToken c t).2 = w.length + 1 ∧ readToken c (w ++ unescape left) = readToken c t := by
  have hamp : '&' ∈ boundarySigns := by decide
  have hpos := readToken_pos c t
  have hle : (readToken c t).2 ≤ t.length + 1 := (readToken_before hamp t [] c nofun).2
  have hread : '&' ∉ t.take ((readToken c t).2 - 1) ∧
      readToken c (unescape t) = readToken c t := by
    obtain ⟨hmem, hself⟩ | ⟨w, s, d, u, rfl, hw, hd, hdecoded, hgt⟩ := h.exists_front
    · rw [hself]
      exact ⟨fun hmem' => hmem (List.mem_of_mem_take hmem'), rfl⟩
    · obtain ⟨hread, hword⟩ := readToken_before hamp w s c nofun
      have hread' : readToken c (w ++ d :: u) = readToken c w := by
        refine (readToken_before hd w u c ?_).1
        rintro rfl rfl rfl
        obtain ⟨s', rfl⟩ := hgt rfl
        exact harrow ⟨s', rfl⟩
      rw [hread, hdecoded, hread', List.take_append_of_le_length (by omega)]
      exact ⟨fun hmem => hw (List.mem_of_mem_take hmem), rfl⟩
  refine ⟨t.take ((readToken c t).2 - 1), t.drop ((readToken c t).2 - 1),
    (List.take_append_drop _ t).symm, hread.1, ?_, ?_⟩
  · rw [List.length_take]
    omega
  · rw [← unescape_append hread.1, List.take_append_drop, hread.2]

/-- The first token of an escaped text, and what it is decoded to: a token of the same kind that is
the first of the decoded text. Only quotes and operators have another text, and what stands behind
the token is decoded apart from it, be it all of the text or a part. -/
theorem Escaped.exists_token {c : Char} {t : Text} (h : Escaped (c :: t)) :
    ∃ kind v left d w, t = v ++ left ∧ readToken c (v ++ left) = (kind, v.length + 1) ∧
      readToken d (w ++ unescape left) = (kind, w.length + 1) ∧
      (kind.isRead = true → c :: v = d :: w) ∧
      ∀ front, front <+: left → unescape (c :: (v ++ front)) = d :: (w ++ unescape front) := by
  by_cases hreference : c = '&' ∧ ∃ name, referenceName? t = some name
  · obtain ⟨rfl, name, hname⟩ := hreference
    obtain ⟨d, rest, rfl, hdecode, hsign⟩ := h.exists_reference hname
    have hd : d = '<' ∨ d = '>' ∨ d = '\'' := hsign.imp And.right (Or.imp And.right And.right)
    have hdash : '-' ≠ d := by
      rintro rfl
      revert hd
      decide
    obtain ⟨w, left, rfl, hw, hlength, hread⟩ := h.tail.of_append.tail.exists_word d
      fun harrow => hdash (List.cons_prefix_cons.1 harrow).1
    have htoken := readToken_reference hsign (w ++ left)
    have hkind := isRead_sign hd (w ++ left)
    refine ⟨(readToken d (w ++ left)).1, name ++ ';' :: w, left, d, w, by simp, ?_, ?_, ?_, ?_⟩
    · rw [List.append_assoc, List.cons_append, htoken, hlength]
      simp only [List.length_append, List.length_cons, Prod.mk.injEq, true_and]
      omega
    · rw [hread, ← hlength]
    · rw [hkind]
      exact nofun
    · intro front _
      rw [List.append_assoc, List.cons_append, hdecode, unescape_append hw]
  · obtain ⟨w, left, rfl, hw, hlength, hread⟩ := h.tail.exists_word c
      fun harrow => h.noArrow harrow.isInfix
    refine ⟨(readToken c (w ++ left)).1, w, left, c, w, rfl, ?_, ?_, fun _ => rfl, ?_⟩
    · rw [← hlength]
    · rw [hread, ← hlength]
    · rintro front ⟨behind, rfl⟩
      rw [← unescape_append hw]
      by_cases hc : c = '&'
      · subst hc
        refine unescape_amp_of_none (Option.eq_none_iff_forall_ne_some.2 fun name hname => ?_)
        refine hreference ⟨rfl, name, ?_⟩
        rw [← List.append_assoc]
        exact referenceName?_append hname behind
      · exact unescape_cons hc _

/-- **Escaped texts have the tokens that they have decoded,** but for the texts of quotes and
operators. -/
theorem Escaped.matched_tokens {t : Text} (h : Escaped t) (offset offset' : Nat) :
    Matched unescape (tokensFrom offset 0 t) (tokensFrom offset' 0 (unescape t)) := by
  -- The induction is on the length: what is left behind the first token is shorter.
  induction hlength : t.length using Nat.strong_induction_on generalizing t offset offset' with
  | _ n ih =>
    cases t with
    | nil => exact .nil
    | cons c t =>
      obtain ⟨kind, v, left, d, w, rfl, hread, hread', htext, hdecode⟩ := h.exists_token
      rw [hdecode left (List.prefix_refl left), tokensFrom_word hread, tokensFrom_word hread']
      have hleft : left.length < n := by
        rw [← hlength, List.length_cons, List.length_append]
        omega
      have hescaped : Escaped left := h.tail.of_append
      refine Matched.prepend ⟨rfl, htext, fun k => ?_⟩ (ih _ hleft hescaped _ _ rfl)
      have hfront :=
        (List.take_prefix k (tokensFrom (offset + c.utf8Size + v.width) 0 left)).flatMap Token.text
      rw [flatMap_text_tokensFrom] at hfront
      exact hdecode _ hfront

/-- **An escaped condition is read as what is evaluated:** it is refused if it is refused when it is
decoded, and else its tree is that of the decoded text where its literals are decoded. -/
theorem parseCondition_unescape {t : Text} (h : Escaped t) :
    (parseCondition t).toOption.map (fun e => (e.mapLiteral unescape).spanless) =
      (parseCondition (unescape t)).toOption.map Expr.spanless := by
  have hmatched : Matched unescape (tokens t) (tokens (unescape t)) := h.matched_tokens 0 0
  have hblank : (skipSpace (tokens t)).isEmpty = (skipSpace (tokens (unescape t))).isEmpty := by
    rw [Bool.eq_iff_iff, List.isEmpty_iff_length_eq_zero, List.isEmpty_iff_length_eq_zero,
      hmatched.skipSpace.length_eq]
  rw [parseCondition, parseCondition, ← hblank]
  split
  · rfl
  · exact map_spanless_readCondition rfl _ _ hmatched

theorem parseCondition_unescape_comparison :
    let t := "'a&lt;' &lt;= &apos;b-&lt;&apos; And '%26&amp' != ''".toList
    Escaped t ∧ (parseCondition t).isOk = true ∧
      (parseCondition t).toOption.map (fun e => (e.mapLiteral unescape).spanless) =
        (parseCondition (unescape t)).toOption.map Expr.spanless := by
  intro t
  have hescaped : Escaped t := by decide +kernel
  exact ⟨hescaped, by decide +kernel, parseCondition_unescape hescaped⟩

/-- An escaped arrow is read only where it is decoded. -/
theorem parseCondition_escapedArrow :
    let t := "@(X-&gt;'%(F)') == 'a'".toList
    references t = ["gt".toList] ∧ (parseCondition t).isOk = false ∧
      (parseCondition (unescape t)).isOk = true := by
  decide +kernel

-- A quotation mark is read only where it is escaped.
example : (parseCondition "&quot;a b&quot; == ''".toList).isOk = true ∧
    (parseCondition "\"a b\" == ''".toList).isOk = false := by
  decide +kernel

end ProjectFile.Evaluation
