import ProjectFile.Json.Writer
import ProjectFile.Proofs.Json.Grammar

/-!
What is written is JSON.

A character of a string is written as itself or as an escape of it (`exists_piece`), so a text is written
as a string with the text in it (`spellsString_writeString`), and members with written names and spelled
values as the object of these members (`spells_writeObject`).
-/

namespace ProjectFile.Json

/-! ## Strings -/

theorem unit?_hexDigit {n : Nat} (h : n < 0x20) :
    unit? '0' '0' (hexDigit (n / 16)) (hexDigit (n % 16)) = some n := by
  have hall : ∀ n < 0x20, unit? '0' '0' (hexDigit (n / 16)) (hexDigit (n % 16)) = some n := by decide
  exact hall n h

/-- A code unit that is no half of a surrogate pair is a character. -/
theorem assemble_unit {n : Nat} (hhigh : isHighHalf n = false) (hlow : isLowHalf n = false)
    (pieces : List Piece) :
    assemble (.unit n :: pieces) = (assemble pieces).map fun t => Char.ofNat n :: t := by
  match pieces with
  | [] => simp [assemble, hhigh, hlow]
  | .char c :: rest => simp [assemble, hhigh, hlow]
  | .unit m :: rest => simp [assemble, hhigh, hlow]

/-- A character is written as a piece that stands for it, whatever pieces follow. -/
theorem exists_piece (c : Char) : ∃ p, SpellsPiece p (escape c) ∧
    ∀ pieces, assemble (p :: pieces) = (assemble pieces).map fun t => c :: t := by
  unfold escape
  split
  case h_8 hquote hescape _ _ _ _ _ =>
    split
    · next hcontrol =>
      have hhigh : isHighHalf c.toNat = false := by
        simp only [isHighHalf, Bool.and_eq_false_iff, decide_eq_false_iff_not]
        omega
      have hlow : isLowHalf c.toNat = false := by
        simp only [isLowHalf, Bool.and_eq_false_iff, decide_eq_false_iff_not]
        omega
      refine ⟨.unit c.toNat, .unit (unit?_hexDigit hcontrol), fun pieces => ?_⟩
      rw [assemble_unit hhigh hlow, Char.ofNat_toNat]
    · next hcontrol =>
      exact ⟨.char c, .char hquote hescape (Nat.not_lt.1 hcontrol), fun _ => rfl⟩
  all_goals exact ⟨.char _, .escape rfl, fun _ => rfl⟩

theorem exists_pieces (t : Text) :
    ∃ pieces, SpellsPieces pieces (t.flatMap escape) ∧ assemble pieces = some t := by
  induction t with
  | nil => exact ⟨[], .nil, rfl⟩
  | cons c t ih =>
    obtain ⟨pieces, hpieces, ht⟩ := ih
    obtain ⟨p, hp, hassemble⟩ := exists_piece c
    exact ⟨p :: pieces, .cons hp hpieces, by rw [hassemble, ht]; rfl⟩

/-- **A text is written as a string with the text in it.** -/
theorem spellsString_writeString (t : Text) : SpellsString (some t) (writeString t) := by
  obtain ⟨pieces, hpieces, ht⟩ := exists_pieces t
  exact .quoted hpieces ht

/-! ## Objects -/

theorem isGap_nil : IsGap [] := List.forall_mem_nil _

/-- There need be no space around a value. -/
theorem Spells.spaced {value : Json} {t : Text} (h : Spells value t) : SpellsSpaced value t := by
  have haround : SpellsSpaced value ([] ++ (t ++ [])) := .around isGap_nil h isGap_nil
  rwa [List.append_nil] at haround

theorem spellsMember_writeMember (name : Text) {value : Json} {t : Text} (h : Spells value t) :
    SpellsMember (some name, value) (writeMember name t) :=
  .named isGap_nil (spellsString_writeString name) isGap_nil h.spaced

section

variable {α : Type} (name : α → Text) (value : α → Json) (text : α → Text)

theorem spellsMembers_joinMembers {entries : List α} (hne : entries ≠ [])
    (h : ∀ e ∈ entries, Spells (value e) (text e)) :
    SpellsMembers (entries.map fun e => (some (name e), value e))
      (joinMembers (entries.map fun e => writeMember (name e) (text e))) := by
  induction entries with
  | nil => exact absurd rfl hne
  | cons e entries ih =>
    obtain ⟨he, hentries⟩ := List.forall_mem_cons.1 h
    have hmember := spellsMember_writeMember (name e) he
    cases entries with
    | nil => exact .last hmember
    | cons e' entries => exact .more hmember (ih (List.cons_ne_nil _ _) hentries)

theorem ofMembers_map_some (entries : List α) :
    ofMembers (entries.map fun e => (some (name e), value e)) =
      .object (entries.map fun e => (name e, value e)) := by
  have hall : (entries.map fun e => (some (name e), value e)).all (fun m => m.1.isSome) = true := by
    simp
  rw [ofMembers, if_pos hall, List.filterMap_map]
  exact congrArg Json.object (congrFun List.filterMap_eq_map entries)

/-- **Members with written names and spelled values are written as the object of these members.** -/
theorem spells_writeObject (entries : List α) (h : ∀ e ∈ entries, Spells (value e) (text e)) :
    Spells (.object (entries.map fun e => (name e, value e)))
      (writeObject (entries.map fun e => writeMember (name e) (text e))) := by
  by_cases hne : entries = []
  · subst hne
    exact .emptyObject isGap_nil
  · rw [← ofMembers_map_some]
    exact .object (spellsMembers_joinMembers name value text hne h)

end

/-- The value that a table is written as. -/
def ofTable (table : Table) : Json := .object (table.map fun entry => (entry.1, .string entry.2))

theorem spells_writeTable (table : Table) : Spells (ofTable table) (writeTable table) := by
  apply spells_writeObject Prod.fst (fun entry => .string entry.2) (fun entry => writeString entry.2)
  intro entry _
  exact .string (spellsString_writeString entry.2)

end ProjectFile.Json
