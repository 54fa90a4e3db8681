import ProjectFile.Proofs.Evaluation.Conditions
import ProjectFile.Proofs.Evaluation.Declared
import ProjectFile.Proofs.Evaluation.Expanded
import ProjectFile.Proofs.Evaluation.Trace

/-!
The values that declarations get.

The declarations of a property are those of the steps that declare it, each with its content
expanded in the project that the step finds (`Steps.declarationsOf_eq`), and each is found in the
history of the property (`Steps.exists_gives`). Together: a property that is written as a template
which can be read has the filled template for its value (`declared_of_template`). Without that it
need not have (`declared_of_template_fails`).
-/

namespace ProjectFile.Evaluation

open Markup Expression

/-! ## Declarations -/

/-- Whether a name has no value that was given. -/
def Declarable (p : EvaluatedProject) (name : Text) : Prop :=
  ∀ h, p.property? name = some h → ∃ place, h.object.provenance = some place

/-- The declarations of a property so far, oldest first. -/
def EvaluatedProject.declarationsOf (p : EvaluatedProject) (name : Text) : List Declaration :=
  ((p.property? name).map History.declarations).getD []

/-- What a step declares a property as: its element, with the content expanded in the project that it
finds. -/
def Step.declaration (s : Source) (step : Step) : Declaration :=
  ⟨s.provenance step.visit.element, expand step.before (unescape step.visit.element.innerText)⟩

/-- Whether a step declares a property of a name. -/
def Step.declares (name : Text) (step : Step) : Bool := step.visit.declaresProperty name

section

variable {s : Source} {p q : EvaluatedProject} {name : Text}

theorem History.declarations_redefine {h : History} {o : EvaluatedObject} {place : Provenance}
    (ho : o.provenance = some place) :
    (h.redefine o).declarations = h.declarations ++ [⟨place, o.value⟩] := by
  simp [declarations, redefine, ho]

/-- A declaration of a name that was not given adds to the declarations of the name, and to no
others. -/
theorem declarationsOf_declareProperty (hp : Declarable p name) {o : EvaluatedObject}
    {place : Provenance} (ho : o.provenance = some place) :
    Declarable (declareProperty p o place) name ∧
      (declareProperty p o place).declarationsOf name = p.declarationsOf name ++
        if Text.sameName o.name name then [⟨place, o.value⟩] else [] := by
  by_cases hname : Text.sameName o.name name = true
  · have hget (r : EvaluatedProject) : r.property? o.name = r.property? name :=
      Register.get?_congr hname r.properties
    rw [if_pos hname, EvaluatedProject.declarationsOf, EvaluatedProject.declarationsOf]
    cases hbefore : p.property? name with
    | none =>
      have hafter : (declareProperty p o place).property? name = some (.ofObject o) := by
        rw [← hget]
        exact property?_declareProperty_of_none p ((hget p).trans hbefore) place
      refine ⟨fun h hh => ?_, ?_⟩
      · obtain rfl := Option.some.inj (hafter.symm.trans hh)
        exact ⟨place, ho⟩
      · rw [hafter]
        simp [History.declarations, History.ofObject, ho]
    | some h =>
      obtain ⟨earlier, hearlier⟩ := hp h hbefore
      have hafter : (declareProperty p o place).property? name = some (h.redefine o) := by
        rw [declareProperty, (hget p).trans hbefore]
        dsimp only
        rw [hearlier]
        exact (Register.get?_insert (h.redefine o) p.properties name).trans (if_pos hname)
      refine ⟨fun g hg => ?_, ?_⟩
      · obtain rfl := Option.some.inj (hafter.symm.trans hg)
        exact ⟨place, ho⟩
      · rw [hafter]
        exact History.declarations_redefine ho
  · have hsame := property?_declareProperty_of_ne p hname place
    rw [Declarable, EvaluatedProject.declarationsOf, hsame, if_neg hname, List.append_nil]
    exact ⟨hp, rfl⟩

/-- So does a step of an evaluation. -/
theorem Visit.Leads.declarationsOf_eq {v : Visit} (hstep : v.Leads s p q) (hp : Declarable p name) :
    Declarable q name ∧ q.declarationsOf name = p.declarationsOf name ++
      if Step.declares name ⟨p, v⟩ then [Step.declaration s ⟨p, v⟩] else [] := by
  have hother (hkind : decide (v.kind = .property) = false)
      (hproperties : q.properties = p.properties) : Declarable q name ∧
      q.declarationsOf name = p.declarationsOf name ++
        if Step.declares name ⟨p, v⟩ then [Step.declaration s ⟨p, v⟩] else [] := by
    have hget : q.property? name = p.property? name := by
      rw [EvaluatedProject.property?, hproperties]
      rfl
    have hnone : Step.declares name ⟨p, v⟩ = false := by
      rw [Step.declares, Visit.declaresProperty, hkind, Bool.false_and]
    rw [Declarable, EvaluatedProject.declarationsOf, hget, hnone]
    exact ⟨hp, (List.append_nil _).symm⟩
  cases hstep with
  | property hholds => exact declarationsOf_declareProperty hp rfl
  | item hholds heval => exact hother rfl (by rw [(evaluateItem_eq heval).1])
  | target => exact hother rfl (by unfold evaluateTarget; split <;> rfl)
  | importedProject hholds => exact hother rfl (by unfold evaluateImport; split <;> rfl)

/-- **The declarations of a property are those of the steps that declare it.** -/
theorem Steps.declarationsOf_eq {steps : List Step} (h : Steps s p steps q) (hp : Declarable p name) :
    Declarable q name ∧ q.declarationsOf name =
      p.declarationsOf name ++ (steps.filter (Step.declares name)).map (Step.declaration s) := by
  induction h with
  | done => exact ⟨hp, (List.append_nil _).symm⟩
  | @step p q r v steps hstep hrest ih =>
    obtain ⟨hq, hfirst⟩ := hstep.declarationsOf_eq hp
    obtain ⟨hr, hall⟩ := ih hq
    refine ⟨hr, ?_⟩
    rw [hall, hfirst, List.append_assoc, List.filter_cons]
    split <;> rfl

end

/-- Whether a history has a declaration: as its winner if no other declaration came after it, and else
among the predecessors. -/
def History.Gives (h : History) (overridden : Bool) (d : Declaration) : Prop :=
  if overridden then d ∈ h.predecessors
  else h.object.provenance = some d.provenance ∧ h.object.value = d.value

theorem History.gives_of_declarations {h : History} {place : Provenance}
    (hplace : h.object.provenance = some place) {earlier later : List Declaration} {d : Declaration}
    (hdeclarations : h.declarations = earlier ++ d :: later) : h.Gives (!later.isEmpty) d := by
  rw [declarations, hplace] at hdeclarations
  rcases List.eq_nil_or_concat later with rfl | ⟨front, last, rfl⟩
  · obtain ⟨-, hwinner⟩ := List.append_inj' hdeclarations rfl
    obtain rfl := List.singleton_inj.1 hwinner
    exact ⟨hplace, rfl⟩
  · rw [List.concat_eq_append, ← List.cons_append, ← List.append_assoc] at hdeclarations
    obtain ⟨hpredecessors, -⟩ := List.append_inj' hdeclarations rfl
    have hlater : (!(front.concat last).isEmpty) = true := by simp
    rw [Gives, if_pos hlater, hpredecessors]
    exact List.mem_append_right _ List.mem_cons_self

/-- **A step that declares a property is found in its history**, if the property was not given. -/
theorem Steps.exists_gives {s : Source} {p q : EvaluatedProject} {earlier later : List Step}
    {step : Step} {name : Text} (h : Steps s p (earlier ++ step :: later) q)
    (hfresh : p.property? name = none) (hstep : step.declares name = true) :
    ∃ history, q.property? name = some history ∧
      history.Gives (later.any (Step.declares name)) (step.declaration s) := by
  have hdeclarable : Declarable p name := by
    intro g hg
    rw [hfresh] at hg
    cases hg
  obtain ⟨hq, hall⟩ := h.declarationsOf_eq hdeclarable
  rw [EvaluatedProject.declarationsOf, EvaluatedProject.declarationsOf, hfresh, List.filter_append,
    List.filter_cons_of_pos hstep, List.map_append, List.map_cons] at hall
  cases hfinal : q.property? name with
  | none =>
    rw [hfinal] at hall
    simp at hall
  | some history =>
    obtain ⟨place, hplace⟩ := hq history hfinal
    rw [hfinal] at hall
    have hlater : (!(later.filter (Step.declares name)).isEmpty) = later.any (Step.declares name) := by
      rw [Bool.eq_iff_iff]
      simp
    have hgives := History.gives_of_declarations hplace hall
    rw [List.isEmpty_map, hlater] at hgives
    exact ⟨history, rfl, hgives⟩

/-! ## Project files -/

/-- **A property that is written as a template is filled with the values that its references have just
before it.** Its declaration has the template filled with them for its value, or the template itself
if it cannot be read. -/
theorem declared_of_template {exists? : FilePath → Bool} {path : FilePath} {t : Text}
    {globals : GlobalProperties} {q : EvaluatedProject}
    (h : evaluate exists? path t globals = .ok q) {root group e : Element}
    (hroot : (Document.parse t).root? = some root) (hgroup : group ∈ root.childElements)
    (hname : group.name = "PropertyGroup".toList)
    (hcondition : group.attribute? "Condition".toList = none) (he : e ∈ group.childElements)
    (hown : e.attribute? "Condition".toList = none)
    (hgiven : ∀ entry ∈ reservedProperties path ++ globals, Text.sameName entry.1 e.name = false)
    {τ : Template} (hcontent : e.innerText = τ.text) :
    ∃ before earlier later history,
      trace exists? path t globals = earlier ++ ⟨before, .property, e, [group, root]⟩ :: later ∧
      Steps ⟨path, .ofText t, exists?⟩ (initialProject path globals) earlier before ∧
      q.property? e.name = some history ∧
      history.Gives (later.any (Step.declares e.name))
        ⟨Source.provenance ⟨path, .ofText t, exists?⟩ e,
          if isReadable τ.text then τ.filled before.textOf else τ.text⟩ := by
  let s : Source := ⟨path, .ofText t, exists?⟩
  obtain ⟨before, hmem⟩ := exists_step_property h hroot hgroup hname hcondition he hown
  have hsteps := steps_trace h
  obtain ⟨earlier, later, after, htrace, hearlier, -, -⟩ := hsteps.exists_of_mem hmem
  have hfresh : (initialProject path globals).property? e.name = none := by
    rw [property?_initialProject, entryGiven?_eq_none_iff.2 hgiven]
    rfl
  have hthis : Step.declares e.name ⟨before, .property, e, [group, root]⟩ = true := by
    rw [Step.declares, Visit.declaresProperty, Text.sameName_iff.2 rfl]
    rfl
  rw [htrace] at hsteps
  obtain ⟨history, hhistory, hgives⟩ := hsteps.exists_gives hfresh hthis
  have hvalue : Step.declaration s ⟨before, .property, e, [group, root]⟩ =
      ⟨s.provenance e, if isReadable τ.text then τ.filled before.textOf else τ.text⟩ := by
    rw [Step.declaration]
    dsimp only
    rw [hcontent, unescape_eq_self τ.not_mem_amp, expand_template]
  exact ⟨before, earlier, later, history, htrace, hearlier, hhistory, hvalue ▸ hgives⟩

/-- Whether a file has a property of a name and a content, where neither it nor its group has a
condition. -/
def hasProperty (t name content : Text) : Bool :=
  (Document.parse t).root?.any fun root => root.childElements.any fun group =>
    decide (group.name = "PropertyGroup".toList ∧ group.attribute? "Condition".toList = none) &&
      group.childElements.any fun e => decide (e.attribute? "Condition".toList = none ∧
        e.name = name ∧ e.innerText = content)

theorem exists_of_hasProperty {t name content : Text} (h : hasProperty t name content = true) :
    ∃ root group e, (Document.parse t).root? = some root ∧ group ∈ root.childElements ∧
      group.name = "PropertyGroup".toList ∧ group.attribute? "Condition".toList = none ∧
      e ∈ group.childElements ∧ e.attribute? "Condition".toList = none ∧ e.name = name ∧
      e.innerText = content := by
  obtain ⟨root, hroot, hgroups⟩ := (Option.any_eq_true _ _).1 h
  obtain ⟨group, hgroup, hproperties⟩ := List.any_eq_true.1 hgroups
  obtain ⟨hown, hproperties⟩ := Bool.and_eq_true_iff.1 hproperties
  obtain ⟨hname, hcondition⟩ := of_decide_eq_true hown
  obtain ⟨e, he, hproperty⟩ := List.any_eq_true.1 hproperties
  exact ⟨root, group, e, hroot, hgroup, hname, hcondition, he, of_decide_eq_true hproperty⟩

/-- A comparison and prose, each with references. -/
def comparisonAndProse : Template :=
  let a : PropertyName := ⟨['A'], 'A', [], rfl, by decide, rfl⟩
  let b : PropertyName := ⟨['b'], 'b', [], rfl, by decide, rfl⟩
  .reference ⟨"'".toList, by decide⟩ a (.reference ⟨"' == '".toList, by decide⟩ b
    (.reference ⟨"';x or ".toList, by decide⟩ a (.last ⟨[], rfl⟩)))

/-- A property that is written as they are, and declared again in another spelling. -/
def comparedWithItself : Text :=
  ("<Project><PropertyGroup><A>1</A><B>'$(A)' == '$(b)';x or $(A)</B><A>2</A><b>3</b>" ++
    "</PropertyGroup></Project>").toList

/-- Its first declaration is filled with the value that the other name has just before it, and with
nothing for its own. -/
theorem declared_of_template_comparedWithItself : ∃ q root group e,
    evaluate (fun _ => false) ⟨"/p".toList⟩ comparedWithItself [] = .ok q ∧
    (q.property? ['B']).map (fun h => (h.object.value, h.predecessors.map Declaration.value)) =
      some (['3'], ["'1' == '';x or 1".toList]) ∧
    ∃ before earlier later history,
      trace (fun _ => false) ⟨"/p".toList⟩ comparedWithItself [] =
        earlier ++ ⟨before, .property, e, [group, root]⟩ :: later ∧
      Steps ⟨⟨"/p".toList⟩, .ofText comparedWithItself, fun _ => false⟩
        (initialProject ⟨"/p".toList⟩ []) earlier before ∧
      q.property? e.name = some history ∧
      history.Gives (later.any (Step.declares e.name))
        ⟨Source.provenance ⟨⟨"/p".toList⟩, .ofText comparedWithItself, fun _ => false⟩ e,
          if isReadable comparisonAndProse.text then comparisonAndProse.filled before.textOf
          else comparisonAndProse.text⟩ := by
  have hproperty : hasProperty comparedWithItself ['B'] comparisonAndProse.text = true := by
    decide +kernel
  obtain ⟨root, group, e, hroot, hgroup, hname, hcondition, he, hown, hb, hcontent⟩ :=
    exists_of_hasProperty hproperty
  have hvalues : (evaluate (fun _ => false) ⟨"/p".toList⟩ comparedWithItself []).toOption.map
      (fun q => (q.property? ['B']).map fun h =>
        (h.object.value, h.predecessors.map Declaration.value)) =
      some (some (['3'], ["'1' == '';x or 1".toList])) := by decide +kernel
  cases h : evaluate (fun _ => false) ⟨"/p".toList⟩ comparedWithItself [] with
  | error problem =>
    rw [h] at hvalues
    cases hvalues
  | ok q =>
    rw [h] at hvalues
    exact ⟨q, root, group, e, rfl, Option.some.inj hvalues, declared_of_template h hroot hgroup hname
      hcondition he hown (by rw [hb]; decide +kernel) hcontent⟩

/-- Prose that looks like a condition and is none. -/
def parenthesized : Template :=
  .reference ⟨"(see) ".toList, by decide⟩ ⟨['A'], 'A', [], rfl, by decide, rfl⟩ (.last ⟨[], rfl⟩)

/-- A property that is written as such. -/
def prose : Text :=
  "<Project><PropertyGroup><A>1</A><B>(see) $(A)</B></PropertyGroup></Project>".toList

/-- What cannot be read is not filled. -/
theorem declared_of_template_fails : ¬ ∀ (exists? : FilePath → Bool) (path : FilePath) (t : Text)
    (globals : GlobalProperties) (q : EvaluatedProject), evaluate exists? path t globals = .ok q →
    ∀ root group e : Element, (Document.parse t).root? = some root → group ∈ root.childElements →
    group.name = "PropertyGroup".toList → group.attribute? "Condition".toList = none →
    e ∈ group.childElements → e.attribute? "Condition".toList = none →
    (∀ entry ∈ reservedProperties path ++ globals, Text.sameName entry.1 e.name = false) →
    ∀ τ : Template, e.innerText = τ.text →
    ∃ before earlier later history,
      trace exists? path t globals = earlier ++ ⟨before, .property, e, [group, root]⟩ :: later ∧
      Steps ⟨path, .ofText t, exists?⟩ (initialProject path globals) earlier before ∧
      q.property? e.name = some history ∧
      history.Gives (later.any (Step.declares e.name))
        ⟨Source.provenance ⟨path, .ofText t, exists?⟩ e, τ.filled before.textOf⟩ := by
  intro hall
  have hproperty : hasProperty prose ['B'] parenthesized.text = true := by decide +kernel
  obtain ⟨root, group, e, hroot, hgroup, hname, hcondition, he, hown, hb, hcontent⟩ :=
    exists_of_hasProperty hproperty
  have hvalues : (evaluate (fun _ => false) ⟨"/p".toList⟩ prose []).toOption.map
      (fun q => (q.property? ['B']).map fun h =>
        (h.object.value, h.predecessors.map Declaration.value)) =
      some (some (parenthesized.text, [])) := by decide +kernel
  -- The other name never has the reference to it for its value.
  have hsteps : (trace (fun _ => false) ⟨"/p".toList⟩ prose []).all (fun step =>
      step.before.textOf ['A'] != "$(A)".toList) = true := by decide +kernel
  cases h : evaluate (fun _ => false) ⟨"/p".toList⟩ prose [] with
  | error problem =>
    rw [h] at hvalues
    cases hvalues
  | ok q =>
    rw [h] at hvalues
    obtain ⟨before, earlier, later, history, htrace, -, hhistory, hgives⟩ :=
      hall _ _ _ _ q h root group e hroot hgroup hname hcondition he hown
        (by rw [hb]; decide +kernel) parenthesized hcontent
    rw [hb] at hhistory
    rw [Except.toOption, Option.map_some, hhistory] at hvalues
    obtain ⟨hvalue, hpredecessors⟩ := Prod.mk.inj (Option.some.inj (Option.some.inj hvalues))
    rw [List.map_eq_nil_iff] at hpredecessors
    rw [History.Gives, hpredecessors] at hgives
    split at hgives
    · cases hgives
    · have hbefore : before.textOf ['A'] = "$(A)".toList := by
        have hfilled := hvalue.symm.trans hgives.2
        simpa [parenthesized, Template.text, Template.filled, eq_comm] using hfilled
      rw [htrace] at hsteps
      simp [hbefore] at hsteps

end ProjectFile.Evaluation
