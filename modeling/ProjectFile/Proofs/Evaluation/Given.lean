import ProjectFile.Proofs.Evaluation.Changes

/-!
Properties that are given from outside.

Before its first element a project has the reserved and the global properties, each with the value
of its last entry, a global one before a reserved one (`property?_initialProject`). No visit changes
such a property: its own declarations are recorded with the value that it has (`Run.fixed`).
-/

namespace ProjectFile.Evaluation

/-! ## The first project -/

/-- The last entry of a name. -/
def lastNamed? (entries : List (Text × Text)) (name : Text) : Option (Text × Text) :=
  entries.reverse.find? fun entry => Text.sameName entry.1 name

/-- The entry that a name is given: the last global one, or else the last reserved one. -/
def entryGiven? (path : FilePath) (globals : GlobalProperties) (name : Text) :
    Option (Text × Text) :=
  (lastNamed? globals name).or (lastNamed? (reservedProperties path) name)

/-- The value that a name is given. -/
def givenValue? (path : FilePath) (globals : GlobalProperties) (name : Text) : Option Text :=
  (entryGiven? path globals name).map Prod.snd

theorem lastNamed?_append (entries more : List (Text × Text)) (name : Text) :
    lastNamed? (entries ++ more) name = (lastNamed? more name).or (lastNamed? entries name) := by
  rw [lastNamed?, List.reverse_append, List.find?_append]
  rfl

/-- The history of a property that is given. -/
def givenHistory (entry : Text × Text) : History :=
  .ofObject ⟨.property, entry.1, entry.2, none, []⟩

theorem property?_foldl_defineGiven (entries : List (Text × Text)) (p : EvaluatedProject)
    (name : Text) :
    (entries.foldl defineGiven p).property? name =
      ((lastNamed? entries name).map givenHistory).or (p.property? name) := by
  induction entries generalizing p with
  | nil => rfl
  | cons entry entries ih =>
    have hfirst : (defineGiven p entry).property? name =
        if Text.sameName entry.1 name then some (givenHistory entry) else p.property? name :=
      Register.get?_insert (givenHistory entry) p.properties name
    rw [List.foldl_cons, ih, hfirst, ← List.singleton_append, lastNamed?_append]
    cases lastNamed? entries name with
    | some last => rfl
    | none =>
      rw [lastNamed?, List.reverse_singleton, List.find?_singleton]
      split <;> rfl

/-- **A name that is given stands for its entry, and any other for nothing.** -/
theorem property?_initialProject (path : FilePath) (globals : GlobalProperties) (name : Text) :
    (initialProject path globals).property? name =
      (entryGiven? path globals name).map givenHistory := by
  rw [initialProject, property?_foldl_defineGiven, lastNamed?_append, ← entryGiven?]
  exact Option.or_none

theorem propertyValue?_initialProject (path : FilePath) (globals : GlobalProperties) (name : Text) :
    (initialProject path globals).propertyValue? name = givenValue? path globals name := by
  rw [EvaluatedProject.propertyValue?, property?_initialProject, givenValue?, Option.map_map]
  rfl

/-- A name is given nothing if no entry is of that name. -/
theorem entryGiven?_eq_none_iff {path : FilePath} {globals : GlobalProperties} {name : Text} :
    entryGiven? path globals name = none ↔
      ∀ entry ∈ reservedProperties path ++ globals, Text.sameName entry.1 name = false := by
  rw [entryGiven?, ← lastNamed?_append, lastNamed?, List.find?_eq_none]
  simp only [List.mem_reverse, Bool.not_eq_true]

/-! ## Visits -/

/-- Whether a name has a value that it was given, and only declarations that left it as it is. -/
def Fixed (p : EvaluatedProject) (name value : Text) : Prop :=
  ∃ h, p.property? name = some h ∧ h.object.provenance = none ∧ h.object.value = value ∧
    ∀ d ∈ h.predecessors, d.value = value

theorem fixed_initialProject {path : FilePath} {globals : GlobalProperties} {name value : Text}
    (h : givenValue? path globals name = some value) :
    Fixed (initialProject path globals) name value := by
  obtain ⟨entry, hentry, rfl⟩ := Option.map_eq_some_iff.1 h
  refine ⟨givenHistory entry, ?_, rfl, rfl, by simp [givenHistory, History.ofObject]⟩
  rw [property?_initialProject, hentry]
  rfl

/-- A visit does not change a value that was given. -/
theorem Fixed.leads {s : Source} {p q : EvaluatedProject} {v : Visit} {name value : Text}
    (h : Fixed p name value) (hstep : v.Leads s p q) : Fixed q name value := by
  have hproperties (hsame : q.properties = p.properties) : Fixed q name value := by
    obtain ⟨h, hget, hfixed⟩ := h
    exact ⟨h, by rw [EvaluatedProject.property?, hsame]; exact hget, hfixed⟩
  cases hstep with
  | @property e around hholds =>
    obtain ⟨h, hget, hgiven, rfl, hpredecessors⟩ := h
    by_cases hname : Text.sameName e.name name = true
    · -- The declaration is one of the name, so it is ignored.
      have hown : p.property? e.name = some h :=
        (Register.get?_congr hname p.properties).trans hget
      have hsame : Text.sameName h.name name = true := Register.sameName_of_get? hget
      rw [declareProperty, hown]
      dsimp only
      rw [hgiven]
      refine ⟨h.ignore (s.provenance e), ?_, hgiven, rfl, ?_⟩
      · exact (Register.get?_insert _ _ _).trans (if_pos hsame)
      · intro d hd
        rcases List.mem_append.1 hd with hd | hd
        · exact hpredecessors d hd
        · rw [List.mem_singleton.1 hd]
    · refine ⟨h, ?_, hgiven, rfl, hpredecessors⟩
      rw [property?_declareProperty_of_ne p hname, hget]
  | item hholds heval => exact hproperties (by rw [(evaluateItem_eq heval).1])
  | target => exact hproperties (by unfold evaluateTarget; split <;> rfl)
  | importedProject hholds => exact hproperties (by unfold evaluateImport; split <;> rfl)

/-- **Nor does a run.** -/
theorem Run.fixed {s : Source} {p q : EvaluatedProject} {visits : List Visit} {name value : Text}
    (hrun : Run s p visits q) (h : Fixed p name value) : Fixed q name value :=
  hrun.preserves (Fixed · name value) (fun _ _ _ hstep hp => hp.leads hstep) h

end ProjectFile.Evaluation
