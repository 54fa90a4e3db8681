import Mathlib.Data.List.Infix
import ProjectFile.Evaluation.Entity

/-!
What decoding references does to a text.

A reference is decoded alone (`unescape_reference`): the text in front of it stays as it is
(`unescape_append`), and so does an `&` that begins no reference (`unescape_amp_of_none`). A text
that is `Escaped` holds references to three signs only (`Escaped.exists_reference`).
-/

namespace ProjectFile.Evaluation

/-! ## References -/

/-- The name of the reference whose `&` stands in front of a text, if it is one. -/
def referenceName? (t : Text) : Option Text :=
  ((Text.cutAt ';' t).map Prod.fst).filter fun name => (decodeEntity? name).isSome

/-- The names of the references of a text, in order. -/
def references : Text → List Text
  | [] => []
  | c :: t => (if c = '&' then (referenceName? t).toList else []) ++ references t

theorem eq_of_cutAt {stop : Char} {t a b : Text} (h : Text.cutAt stop t = some (a, b)) :
    t = a ++ stop :: b := by
  induction t generalizing a with
  | nil => cases h
  | cons c t ih =>
    rw [Text.cutAt] at h
    split at h
    · next hc =>
      cases h
      rw [hc]
      rfl
    · obtain ⟨⟨a', b'⟩, hcut, heq⟩ := Option.map_eq_some_iff.1 h
      cases heq
      rw [List.cons_append, ← ih hcut]

/-- What follows does not change where a text is cut. -/
theorem cutAt_append {stop : Char} {t a b : Text} (h : Text.cutAt stop t = some (a, b)) (u : Text) :
    Text.cutAt stop (t ++ u) = some (a, b ++ u) := by
  induction t generalizing a with
  | nil => cases h
  | cons c t ih =>
    rw [Text.cutAt] at h
    rw [List.cons_append, Text.cutAt]
    split at h
    · next hc =>
      cases h
      rw [if_pos hc]
    · next hc =>
      obtain ⟨⟨a', b'⟩, hcut, heq⟩ := Option.map_eq_some_iff.1 h
      cases heq
      rw [if_neg hc, ih hcut]
      rfl

theorem referenceName?_eq_some_iff {t name : Text} : referenceName? t = some name ↔
    (∃ rest, Text.cutAt ';' t = some (name, rest)) ∧ (decodeEntity? name).isSome = true := by
  rw [referenceName?, Option.filter_eq_some_iff, Option.map_eq_some_iff]
  constructor
  · rintro ⟨⟨⟨a, rest⟩, hcut, rfl⟩, hdecode⟩
    exact ⟨⟨rest, hcut⟩, hdecode⟩
  · rintro ⟨⟨rest, hcut⟩, hdecode⟩
    exact ⟨⟨(name, rest), hcut, rfl⟩, hdecode⟩

/-- What begins a reference does so whatever follows. -/
theorem referenceName?_append {t name : Text} (h : referenceName? t = some name) (u : Text) :
    referenceName? (t ++ u) = some name := by
  obtain ⟨⟨rest, hcut⟩, hdecode⟩ := referenceName?_eq_some_iff.1 h
  exact referenceName?_eq_some_iff.2 ⟨⟨_, cutAt_append hcut u⟩, hdecode⟩

/-! ## Decoding -/

theorem unescape_cons {c : Char} (hc : c ≠ '&') (t : Text) : unescape (c :: t) = c :: unescape t := by
  rw [unescape, unescapeFrom, if_neg hc]
  rfl

/-- A text without `&` stays in front of what is decoded. -/
theorem unescape_append {w : Text} (hw : '&' ∉ w) (t : Text) :
    unescape (w ++ t) = w ++ unescape t := by
  induction w with
  | nil => rfl
  | cons c w ih =>
    rw [List.mem_cons, not_or] at hw
    rw [List.cons_append, unescape_cons (Ne.symm hw.1), ih hw.2, List.cons_append]

theorem unescapeFrom_skip (w t : Text) : unescapeFrom w.length (w ++ t) = unescape t := by
  induction w with
  | nil => rfl
  | cons c w ih => rw [List.length_cons, List.cons_append, unescapeFrom, ih]

/-- An `&` that begins no reference stays. -/
theorem unescape_amp_of_none {t : Text} (h : referenceName? t = none) :
    unescape ('&' :: t) = '&' :: unescape t := by
  rw [unescape, unescapeFrom, if_pos rfl]
  cases hcut : Text.cutAt ';' t with
  | none => rfl
  | some parts =>
    obtain ⟨name, rest⟩ := parts
    dsimp only
    cases hdecode : decodeEntity? name with
    | none => rfl
    | some d =>
      have hname : referenceName? t = some name :=
        referenceName?_eq_some_iff.2 ⟨⟨rest, hcut⟩, by rw [hdecode]; rfl⟩
      rw [h] at hname
      cases hname

/-- A reference is decoded, and then what stands behind it. -/
theorem unescape_reference {name : Text} {d : Char} (hname : ';' ∉ name)
    (hdecode : decodeEntity? name = some d) (t : Text) :
    unescape ('&' :: (name ++ ';' :: t)) = d :: unescape t := by
  have hcut : Text.cutAt ';' (name ++ ';' :: t) = some (name, t) := by
    clear hdecode
    induction name with
    | nil => rfl
    | cons c name ih =>
      rw [List.mem_cons, not_or] at hname
      rw [List.cons_append, Text.cutAt, if_neg (Ne.symm hname.1), ih hname.2]
      rfl
  have hskip := unescapeFrom_skip (name ++ [';']) t
  rw [List.length_append, List.length_singleton, List.append_assoc] at hskip
  rw [unescape, unescapeFrom, if_pos rfl, hcut]
  dsimp only
  rw [hdecode]
  exact congrArg (d :: ·) hskip

/-! ## Texts that are escaped -/

/-- Whether the only references of a text are those to angle brackets and the apostrophe, none of
which belongs to an arrow. These are the signs that are read escaped as they are read bare. -/
structure Escaped (t : Text) : Prop where
  names : ∀ name ∈ references t, name ∈ ["lt".toList, "gt".toList, "apos".toList]
  noArrow : ¬ "-&gt;".toList <:+: t

instance (t : Text) : Decidable (Escaped t) :=
  decidable_of_iff ((∀ name ∈ references t, name ∈ ["lt".toList, "gt".toList, "apos".toList]) ∧
    ¬ "-&gt;".toList <:+: t) ⟨fun h => ⟨h.1, h.2⟩, fun h => ⟨h.names, h.noArrow⟩⟩

theorem Escaped.tail {c : Char} {t : Text} (h : Escaped (c :: t)) : Escaped t where
  names name hname := h.names name (List.mem_append_right _ hname)
  noArrow harrow := h.noArrow (harrow.trans (List.infix_cons (List.infix_refl t)))

theorem Escaped.of_append {w t : Text} (h : Escaped (w ++ t)) : Escaped t := by
  induction w with
  | nil => exact h
  | cons c w ih => exact ih h.tail

/-- The references of such a text, and what they are decoded to. -/
theorem Escaped.exists_reference {t name : Text} (h : Escaped ('&' :: t))
    (hname : referenceName? t = some name) : ∃ d rest, t = name ++ ';' :: rest ∧
      (∀ u, unescape ('&' :: (name ++ ';' :: u)) = d :: unescape u) ∧
      (name = "lt".toList ∧ d = '<' ∨ name = "gt".toList ∧ d = '>' ∨
        name = "apos".toList ∧ d = '\'') := by
  obtain ⟨⟨rest, hcut⟩, -⟩ := referenceName?_eq_some_iff.1 hname
  have hmem : name ∈ references ('&' :: t) := by
    rw [references, if_pos rfl, hname]
    exact List.mem_cons_self
  have hcases := h.names name hmem
  simp only [List.mem_cons, List.not_mem_nil, or_false] at hcases
  rcases hcases with rfl | rfl | rfl
  · exact ⟨'<', rest, eq_of_cutAt hcut, unescape_reference (by decide +kernel) (by decide +kernel),
      .inl ⟨rfl, rfl⟩⟩
  · exact ⟨'>', rest, eq_of_cutAt hcut, unescape_reference (by decide +kernel) (by decide +kernel),
      .inr (.inl ⟨rfl, rfl⟩)⟩
  · exact ⟨'\'', rest, eq_of_cutAt hcut, unescape_reference (by decide +kernel) (by decide +kernel),
      .inr (.inr ⟨rfl, rfl⟩)⟩

end ProjectFile.Evaluation
