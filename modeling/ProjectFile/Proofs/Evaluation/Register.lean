import ProjectFile.Evaluation.Model

/-!
Histories by name.

Setting a history changes what is found under its name, in any case of letters, and nothing else
(`Register.get?_insert`). No two histories of a register have the same name
(`Register.Distinct.insert`), so each is found under its own (`Register.Distinct.get?_eq`).

The trail of a name is where the declarations of its history stand, oldest first. What makes a
history longer by a declaration makes the trail of its name longer by it, and no other
(`Register.trail_insert`).
-/

namespace ProjectFile.Evaluation

/-- Where the declarations of a history stand, oldest first: those that were overridden and the
winner, if it was declared. -/
def History.provenances (h : History) : List Provenance :=
  h.predecessors.map Declaration.provenance ++ h.object.provenance.toList

namespace Register

variable {r : Register} {h : History} {name : Text}

theorem get?_cons (g : History) (r : Register) (name : Text) :
    get? (g :: r) name = if Text.sameName g.name name then some g else r.get? name := by
  rw [get?, List.find?_cons]
  cases Text.sameName g.name name <;> rfl

theorem sameName_of_get? (hget : r.get? name = some h) : Text.sameName h.name name = true :=
  List.find?_some (p := fun g : History => Text.sameName g.name name) hget

/-- A register does not tell the case of letters. -/
theorem get?_congr {s t : Text} (hst : Text.sameName s t = true) (r : Register) :
    r.get? s = r.get? t := by
  induction r with
  | nil => rfl
  | cons g r ih =>
    rw [get?_cons, get?_cons, ih, Text.sameName, Text.sameName, Text.sameName_iff.1 hst]

theorem get?_insert (h : History) (r : Register) (name : Text) :
    (r.insert h).get? name = if Text.sameName h.name name then some h else r.get? name := by
  induction r with
  | nil => exact get?_cons h [] name
  | cons g r ih =>
    rw [insert]
    split
    · next hsame =>
      rw [get?_cons, get?_cons, Text.sameName, Text.sameName, Text.sameName_iff.1 hsame]
      split <;> rfl
    · next hother =>
      rw [get?_cons, get?_cons, ih]
      rw [Text.sameName_iff] at hother
      simp only [Text.sameName_iff]
      -- The name is that of one of the two histories at most.
      by_cases hg : Text.fold g.name = Text.fold name
      · rw [if_pos hg, if_pos hg, if_neg (fun hh => hother (hg.trans hh.symm))]
      · rw [if_neg hg, if_neg hg]

/-! ## Names -/

/-- Whether no two histories have the same name. -/
def Distinct (r : Register) : Prop :=
  r.Pairwise fun g h => ¬ Text.sameName g.name h.name = true

theorem mem_insert {g : History} (hg : g ∈ r.insert h) : g = h ∨ g ∈ r := by
  induction r with
  | nil => exact .inl (List.mem_singleton.1 hg)
  | cons k r ih =>
    rw [insert] at hg
    split at hg
    · rcases List.mem_cons.1 hg with rfl | hg
      · exact .inl rfl
      · exact .inr (List.mem_cons_of_mem _ hg)
    · rcases List.mem_cons.1 hg with rfl | hg
      · exact .inr List.mem_cons_self
      · exact (ih hg).imp_right (List.mem_cons_of_mem _)

theorem Distinct.insert (hr : r.Distinct) (h : History) : (r.insert h).Distinct := by
  induction r with
  | nil => exact List.pairwise_singleton _ _
  | cons g r ih =>
    obtain ⟨hg, hr⟩ := List.pairwise_cons.1 hr
    rw [Register.insert]
    split
    · next hsame =>
      refine List.pairwise_cons.2 ⟨?_, hr⟩
      intro k hk hhk
      exact hg k hk (Text.sameName_iff.2 ((Text.sameName_iff.1 hsame).trans (Text.sameName_iff.1 hhk)))
    · next hother =>
      refine List.pairwise_cons.2 ⟨?_, ih hr⟩
      intro k hk
      rcases mem_insert hk with rfl | hk
      · exact hother
      · exact hg k hk

/-- A history is found under its name. -/
theorem Distinct.get?_eq (hr : r.Distinct) (hmem : h ∈ r) : r.get? h.name = some h := by
  induction r with
  | nil => cases hmem
  | cons g r ih =>
    obtain ⟨hg, hr⟩ := List.pairwise_cons.1 hr
    rw [get?_cons]
    rcases List.mem_cons.1 hmem with rfl | hmem
    · rw [if_pos (Text.sameName_iff.2 rfl)]
    · rw [if_neg (hg h hmem), ih hr hmem]

/-! ## Trails -/

/-- Where the declarations of a name stand, oldest first. -/
def trail (r : Register) (name : Text) : List Provenance :=
  ((r.get? name).map History.provenances).getD []

theorem trail_eq (hget : r.get? name = some h) : r.trail name = h.provenances := by
  rw [trail, hget]
  rfl

/-- A history that is its name's trail and one more declaration makes that trail longer, and leaves
those of other names. -/
theorem trail_insert {o : Provenance} (hprovenances : h.provenances = r.trail h.name ++ [o])
    (name : Text) :
    (r.insert h).trail name =
      r.trail name ++ if Text.sameName h.name name then [o] else [] := by
  rw [trail, get?_insert]
  split
  · next hsame =>
    rw [trail, ← get?_congr hsame]
    exact hprovenances
  · exact (List.append_nil _).symm

end Register

namespace History

theorem provenances_ofObject {o : EvaluatedObject} {at' : Provenance}
    (ho : o.provenance = some at') : (ofObject o).provenances = [at'] := by
  rw [provenances, ofObject, ho]
  rfl

/-- The winner before a redefinition is one of the predecessors after it. -/
theorem provenances_redefine (h : History) {o : EvaluatedObject} {at' : Provenance}
    (ho : o.provenance = some at') : (h.redefine o).provenances = h.provenances ++ [at'] := by
  cases hwinner : h.object.provenance with
  | none => simp [provenances, redefine, ho, hwinner]
  | some before => simp [provenances, redefine, ho, hwinner]

theorem provenances_ignore {h : History} (hwinner : h.object.provenance = none)
    (at' : Provenance) : (h.ignore at').provenances = h.provenances ++ [at'] := by
  simp [provenances, ignore, hwinner]

end History

end ProjectFile.Evaluation
