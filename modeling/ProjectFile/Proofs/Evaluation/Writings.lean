import Mathlib.Data.List.Forall2
import ProjectFile.Proofs.Evaluation.Entities
import ProjectFile.Proofs.Text.Digits

/-!
Every way of writing a text is decoded to the text.

A character is written as itself, by its name if it has one, or by its code point in decimal or in
hexadecimal digits (`Writes`). Each writing is decoded to its character in front of any text
(`Writes.unescape_append`), so a text whose characters are written one by one, each in its own way, is
what its writings are decoded to (`unescape_flatten`). What has been decoded is not looked at again,
and the `;` of a reference is the first one behind its `&`, since none of the writings has one inside.
-/

namespace ProjectFile.Evaluation

/-- The name of a character in markup, if it has one. -/
def entityName? : Char → Option Text
  | '<' => some "lt".toList
  | '>' => some "gt".toList
  | '&' => some "amp".toList
  | '"' => some "quot".toList
  | '\'' => some "apos".toList
  | _ => none

/-- Whether a text is a way of writing a character. References by code point may have zeros in
front, and each hexadecimal digit may be a small or a capital letter. -/
inductive Writes (c : Char) : Text → Prop where
  | itself (h : c ≠ '&') : Writes c [c]
  | named {name : Text} (h : entityName? c = some name) : Writes c ('&' :: (name ++ [';']))
  | decimal (zeros : Nat) :
    Writes c ('&' :: '#' :: (List.replicate zeros '0' ++ Nat.toDigits 10 c.toNat ++ [';']))
  | hexadecimal (zeros : Nat) {digits : Text} (h : Text.fold digits = Nat.toDigits 16 c.toNat) :
    Writes c ('&' :: '#' :: 'x' :: (List.replicate zeros '0' ++ digits ++ [';']))

/-! ## References -/

theorem charOf?_toNat (c : Char) : charOf? c.toNat = some c := by
  have hvalid : c.toNat.isValidChar := c.valid
  rw [charOf?, if_pos hvalid, Char.ofNat_toNat]

theorem decodeEntity?_entityName? {c : Char} {name : Text} (h : entityName? c = some name) :
    decodeEntity? name = some c ∧ ';' ∉ name := by
  unfold entityName? at h
  split at h <;> cases h <;> decide

theorem lookup_namedEntities_hash (t : Text) : namedEntities.lookup ('#' :: t) = none := by
  rw [List.lookup_eq_none_iff]
  simp [namedEntities]

theorem not_mem_of_digitsFrom? {radix value n : Nat} {t : Text} (h : Text.digitsFrom? radix value t = some n)
    {c : Char} (hc : Text.digit? radix c = none) : c ∉ t := by
  intro hmem
  have hsome := Text.isSome_digit?_of_digitsFrom? h c hmem
  rw [hc] at hsome
  cases hsome

theorem decodeEntity?_decimal {c : Char} {t : Text} (hne : t ≠ [])
    (h : Text.digitsFrom? 10 0 t = some c.toNat) : decodeEntity? ('#' :: t) = some c := by
  have hx : 'x' ∉ t := not_mem_of_digitsFrom? h (by decide)
  unfold decodeEntity?
  rw [lookup_namedEntities_hash]
  split
  · next heq => cases heq
  · split
    · next heq => exact absurd ((List.cons.inj heq).2 ▸ List.mem_cons_self) hx
    · next heq =>
      rw [← (List.cons.inj heq).2, Text.natural?_of_digitsFrom? (by decide) hne h, Option.bind_some,
        charOf?_toNat]
    · next hother => exact absurd rfl (hother t)

theorem decodeEntity?_hexadecimal {c : Char} {t : Text} (hne : t ≠ [])
    (h : Text.digitsFrom? 16 0 t = some c.toNat) : decodeEntity? ('#' :: 'x' :: t) = some c := by
  unfold decodeEntity?
  rw [lookup_namedEntities_hash]
  show (Text.natural? 16 t).bind charOf? = some c
  rw [Text.natural?_of_digitsFrom? (by decide) hne h, Option.bind_some, charOf?_toNat]

/-! ## Writings -/

/-- A writing is decoded alone, whatever follows it. -/
theorem Writes.unescape_append {c : Char} {w : Text} (h : Writes c w) (t : Text) :
    unescape (w ++ t) = c :: unescape t := by
  cases h with
  | itself hc => exact unescape_cons hc t
  | named hname =>
    obtain ⟨hdecode, hsemicolon⟩ := decodeEntity?_entityName? hname
    simpa using unescape_reference hsemicolon hdecode t
  | decimal zeros =>
    have hdigits : Text.digitsFrom? 10 0 (List.replicate zeros '0' ++ Nat.toDigits 10 c.toNat) =
        some c.toNat := by
      rw [Text.digitsFrom?_replicate_append (by decide) (by decide)]
      exact Text.digitsFrom?_toDigits (by decide) (by decide) c.toNat
    have hsemicolon := not_mem_of_digitsFrom? hdigits (by decide : Text.digit? 10 ';' = none)
    have hdecode := decodeEntity?_decimal (by simp) hdigits
    simpa using unescape_reference (by simpa using hsemicolon) hdecode t
  | @hexadecimal zeros digits hcase =>
    have hdigits : Text.digitsFrom? 16 0 (List.replicate zeros '0' ++ digits) = some c.toNat := by
      rw [Text.digitsFrom?_replicate_append (by decide) (by decide), ← Text.digitsFrom?_fold, hcase]
      exact Text.digitsFrom?_toDigits (by decide) (by decide) c.toNat
    have hne : digits ≠ [] := by
      rintro rfl
      exact Nat.toDigits_ne_nil hcase.symm
    have hsemicolon := not_mem_of_digitsFrom? hdigits (by decide : Text.digit? 16 ';' = none)
    have hdecode := decodeEntity?_hexadecimal (by simp [hne]) hdigits
    simpa using unescape_reference (by simpa using hsemicolon) hdecode t

/-- Decoding a text in which each character is written in some way gives the text that was written. -/
theorem unescape_flatten {s : Text} {ws : List Text} (h : List.Forall₂ Writes s ws) :
    unescape ws.flatten = s := by
  induction h with
  | nil => rfl
  | cons hw _ ih => rw [List.flatten_cons, hw.unescape_append, ih]

/-- An entity that is itself written with an entity, a letter with both kinds of hexadecimal digits, and
an `&` by its code point. -/
def mixedWritings : List Text :=
  ["&amp;".toList, "l".toList, "&#x074;".toList, ";".toList, "&#xEa;".toList, "&#038;".toList]

theorem unescape_flatten_mixed : List.Forall₂ Writes "&lt;ê&".toList mixedWritings ∧
    unescape mixedWritings.flatten = "&lt;ê&".toList := by
  have h : List.Forall₂ Writes "&lt;ê&".toList mixedWritings :=
    .cons (@Writes.named '&' "amp".toList rfl) <| .cons (.itself (by decide)) <|
      .cons (@Writes.hexadecimal 't' 1 "74".toList (by decide)) <| .cons (.itself (by decide)) <|
        .cons (@Writes.hexadecimal 'ê' 0 "Ea".toList (by decide)) <| .cons (.decimal 1) .nil
  exact ⟨h, unescape_flatten h⟩

end ProjectFile.Evaluation
