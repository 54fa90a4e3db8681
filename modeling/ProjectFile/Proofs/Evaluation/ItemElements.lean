import ProjectFile.Proofs.Evaluation.Conditions
import ProjectFile.Proofs.Evaluation.Expanded
import ProjectFile.Proofs.Evaluation.Histories
import ProjectFile.Proofs.Evaluation.Trace

/-!
The item elements of a project file, and what an only one includes.

`itemElementsOf` are the children of the item groups, with those in all branches of the choices
around them. An evaluation visits some of these, in their order and each at most once
(`visitedItems_traceContent`), and nothing else touches the items (`Steps.items_eq`). So where a file has
one item element and it is evaluated, the items are what it makes of none (`Steps.exists_of_visitedItems`);
if it only includes a text that stands for itself, they are the pieces of this text
(`values_of_evaluate`).
-/

namespace ProjectFile.Evaluation

open Markup Expression

/-! ## The item elements of a text -/

mutual

/-- The children of the item groups in the content of a root or a branch, from `offset` on. -/
def itemElements (offset : Nat) : List Node → List Element
  | [] => []
  | .element tag content endTag :: rest =>
    let e : Element := ⟨offset, tag, content, endTag⟩
    (if e.name = "Choose".toList then branchItemElements e.startTagSpan.stop content
      else if e.name = "ItemGroup".toList then e.childElements
      else []) ++
      itemElements (offset + e.node.width) rest
  | n :: rest => itemElements (offset + n.width) rest

/-- Those in all branches of a choice. -/
def branchItemElements (offset : Nat) : List Node → List Element
  | [] => []
  | .element tag content endTag :: rest =>
    let e : Element := ⟨offset, tag, content, endTag⟩
    (if e.name = "When".toList ∨ e.name = "Otherwise".toList then
        itemElements e.startTagSpan.stop content
      else []) ++
      branchItemElements (offset + e.node.width) rest
  | n :: rest => branchItemElements (offset + n.width) rest

end

/-- The item elements of a project file, in the order of the text. -/
def itemElementsOf (d : Document) : List Element :=
  match d.root? with
  | some root => itemElements root.startTagSpan.stop root.content
  | none => []

/-! ## The item elements that are visited -/

/-- The element that a step visits as an item. -/
def Step.item? (step : Step) : Option Element :=
  if step.visit.kind = .item then some step.visit.element else none

/-- The item elements that some steps visit. -/
def visitedItems (steps : List Step) : List Element := steps.filterMap Step.item?

theorem visitedItems_append (steps more : List Step) :
    visitedItems (steps ++ more) = visitedItems steps ++ visitedItems more := List.filterMap_append

theorem visitedItems_cons_of_item {step : Step} (h : step.visit.kind = .item) (steps : List Step) :
    visitedItems (step :: steps) = step.visit.element :: visitedItems steps :=
  List.filterMap_cons_some (if_pos h)

theorem visitedItems_cons_of_ne {step : Step} (h : step.visit.kind ≠ .item) (steps : List Step) :
    visitedItems (step :: steps) = visitedItems steps := List.filterMap_cons_none (if_neg h)

theorem visitedItems_eq_nil {steps : List Step} (h : ∀ step ∈ steps, step.visit.kind ≠ .item) :
    visitedItems steps = [] := List.filterMap_eq_nil_iff.2 fun step hstep => if_neg (h step hstep)

section

variable {s : Source} {around : List Element} {p : EvaluatedProject} {e : Element}

/-- The steps of a group are of its kind. -/
theorem kind_of_mem_traceGroup {kind : ObjectKind}
    {effect : EvaluatedProject → Element → Except EvaluationError EvaluatedProject}
    {es : List Element} {step : Step} (h : step ∈ traceGroup s kind around effect p es) :
    step.visit.kind = kind := by
  induction es generalizing p with
  | nil => cases h
  | cons c es ih =>
    rw [traceGroup] at h
    rcases List.mem_append.1 h with h | h
    · split at h
      · rw [List.mem_singleton.1 h]
      · cases h
    · split at h
      · exact ih h
      · cases h

/-- The item elements that are visited in a group are some of its children. -/
theorem visitedItems_traceGroup
    {effect : EvaluatedProject → Element → Except EvaluationError EvaluatedProject}
    (es : List Element) : (visitedItems (traceGroup s .item around effect p es)).Sublist es := by
  induction es generalizing p with
  | nil => exact .slnil
  | cons c es ih =>
    rw [traceGroup, visitedItems_append]
    have hfirst : (visitedItems (if s.takes p c then [⟨p, .item, c, around⟩] else [])).Sublist [c] := by
      split
      · rw [visitedItems_cons_of_item rfl]
        exact List.Sublist.refl _
      · exact List.nil_sublist _
    refine hfirst.append ?_
    split
    · exact ih
    · exact List.nil_sublist _

/-- Of an element that is not a choice those are visited that its children are, if it is a group. -/
theorem visitedItems_traceChild (around : List Element) :
    (visitedItems (traceChild s around p e)).Sublist
      (if e.name = "ItemGroup".toList then e.childElements else []) := by
  have hnone {steps : List Step} (h : ∀ step ∈ steps, step.visit.kind ≠ .item) {es : List Element} :
      (visitedItems steps).Sublist es := by
    rw [visitedItems_eq_nil h]
    exact List.nil_sublist _
  have hsingle {step : Step} (h : step.visit.kind ≠ .item) {es : List Element} :
      (visitedItems [step]).Sublist es := hnone (List.forall_mem_singleton.2 h)
  rw [traceChild]
  split
  · split
    · refine hnone fun step hstep => ?_
      rw [kind_of_mem_traceGroup hstep]
      decide
    · exact List.nil_sublist _
  split
  · split
    · exact visitedItems_traceGroup _
    · exact List.nil_sublist _
  split
  · exact hsingle (show ObjectKind.target ≠ .item by decide)
  split
  · split
    · exact hsingle (show ObjectKind.importedProject ≠ .item by decide)
    · exact List.nil_sublist _
  · exact List.nil_sublist _

end

mutual

/-- **The item elements that are visited are some of those of the text**, in their order. -/
theorem visitedItems_traceContent (s : Source) (around : List Element) (offset : Nat)
    (p : EvaluatedProject) : ∀ ns : List Node,
      (visitedItems (traceContent s around offset p ns)).Sublist (itemElements offset ns)
  | [] => by
    rw [traceContent, itemElements]
    exact .slnil
  | .element tag content endTag :: rest => by
    let e : Element := ⟨offset, tag, content, endTag⟩
    rw [traceContent, itemElements, visitedItems_append]
    refine List.Sublist.append ?_ ?_
    · by_cases hchoose : e.name = "Choose".toList
      · rw [if_pos hchoose, if_pos hchoose]
        exact visitedItems_traceBranches s _ _ _ content
      · rw [if_neg hchoose, if_neg hchoose]
        exact visitedItems_traceChild around
    · split
      · exact visitedItems_traceContent s around _ _ rest
      · exact List.nil_sublist _
  | .strayEnd tag :: rest => by
    rw [traceContent, itemElements]
    · exact visitedItems_traceContent s around _ p rest
    · nofun
    · nofun
  | .run kind t :: rest => by
    rw [traceContent, itemElements]
    · exact visitedItems_traceContent s around _ p rest
    · nofun
    · nofun
termination_by ns => sizeOf ns

theorem visitedItems_traceBranches (s : Source) (around : List Element) (offset : Nat)
    (p : EvaluatedProject) : ∀ ns : List Node,
      (visitedItems (traceBranches s around offset p ns)).Sublist (branchItemElements offset ns)
  | [] => by
    rw [traceBranches, branchItemElements]
    exact .slnil
  | .element tag content endTag :: rest => by
    let e : Element := ⟨offset, tag, content, endTag⟩
    rw [traceBranches, branchItemElements]
    split
    · next happlies =>
      rw [if_pos (name_of_branchApplies happlies)]
      exact (visitedItems_traceContent s _ _ _ content).trans (List.sublist_append_left _ _)
    · exact (visitedItems_traceBranches s around _ p rest).trans (List.sublist_append_right _ _)
    · exact List.nil_sublist _
  | .strayEnd tag :: rest => by
    rw [traceBranches, branchItemElements]
    · exact visitedItems_traceBranches s around _ p rest
    · nofun
    · nofun
  | .run kind t :: rest => by
    rw [traceBranches, branchItemElements]
    · exact visitedItems_traceBranches s around _ p rest
    · nofun
    · nofun
termination_by ns => sizeOf ns

end

/-! ## What they do to the items -/

/-- Only item elements change the items. -/
theorem Visit.Leads.items_eq {s : Source} {p q : EvaluatedProject} {v : Visit} (h : v.Leads s p q)
    (hkind : v.kind ≠ .item) : q.items = p.items := by
  cases h with
  | property hholds => rfl
  | item hholds heval => exact absurd rfl hkind
  | target =>
    unfold evaluateTarget
    split <;> rfl
  | importedProject hholds =>
    unfold evaluateImport
    split <;> rfl

namespace Steps

variable {s : Source} {p q : EvaluatedProject} {steps : List Step} {e : Element}

theorem items_eq (h : Steps s p steps q) (hnone : visitedItems steps = []) : q.items = p.items := by
  induction h with
  | done => rfl
  | @step p p' q v steps hstep hrest ih =>
    by_cases hkind : v.kind = .item
    · rw [visitedItems_cons_of_item hkind] at hnone
      cases hnone
    · rw [visitedItems_cons_of_ne hkind] at hnone
      rw [ih hnone, hstep.items_eq hkind]

/-- **An only item element** finds the items that there were, and leaves those that there are. -/
theorem exists_of_visitedItems (h : Steps s p steps q) (honly : visitedItems steps = [e]) :
    ∃ before after, evaluateItem s before e = .ok after ∧ before.items = p.items ∧
      after.items = q.items := by
  induction h with
  | done => cases honly
  | @step p p' q v steps hstep hrest ih =>
    by_cases hkind : v.kind = .item
    · rw [visitedItems_cons_of_item hkind, List.cons.injEq] at honly
      obtain ⟨rfl, hnone⟩ := honly
      cases hstep with
      | item hholds heval => exact ⟨p, p', heval, rfl, (hrest.items_eq hnone).symm⟩
      | property => cases hkind
      | target => cases hkind
      | importedProject => cases hkind
    · rw [visitedItems_cons_of_ne hkind] at honly
      obtain ⟨before, after, heval, hbefore, hafter⟩ := ih honly
      exact ⟨before, after, heval, hbefore.trans (hstep.items_eq hkind), hafter⟩

end Steps

/-! ## What an element includes -/

/-- Whether an element does nothing but include: it is always taken, and neither removes nor updates
nor excludes. -/
structure OnlyIncludes (e : Element) : Prop where
  condition : e.attribute? "Condition".toList = none
  remove : e.attribute? "Remove".toList = none
  update : e.attribute? "Update".toList = none
  exclude : e.attribute? "Exclude".toList = none

/-- Whether an element that only includes is the one item element of a text, in a group of the project
that is always taken. -/
structure IsOnlyItem (t : Text) (e : Element) : Prop extends OnlyIncludes e where
  length_eq : (itemElementsOf (Document.parse t)).length = 1
  group : ∃ root group, (Document.parse t).root? = some root ∧ group ∈ root.childElements ∧
    group.name = "ItemGroup".toList ∧ group.attribute? "Condition".toList = none ∧
    e ∈ group.childElements

theorem attributeValue?_of_none {e : Element} {name : Text} (h : e.attribute? name = none)
    (p : EvaluatedProject) : attributeValue? p e name = none := by
  rw [attributeValue?, Element.attributeValue?, h]
  rfl

/-- A text that stands for itself is included piece by piece. -/
theorem values_of_evaluateItem {s : Source} {p q : EvaluatedProject} {e : Element}
    (h : evaluateItem s p e = .ok q) (he : OnlyIncludes e) {w : Text}
    (hinclude : e.attributeValue? "Include".toList = some w) (hplain : '&' ∉ w)
    (hfree : Unreferenced w) :
    q.items.map EvaluatedObject.value = p.items.map EvaluatedObject.value ++ splitList w := by
  obtain ⟨taken, hholds, h⟩ := exists_of_bind_eq_ok h
  obtain rfl : true = taken :=
    Except.ok.inj ((Source.holds_of_condition_none he.condition).symm.trans hholds)
  obtain ⟨metadata, -, h⟩ := exists_of_bind_eq_ok h
  have hincluded : attributeValue? p e "Include".toList = some w := by
    rw [attributeValue?, hinclude, Option.map_some, unescape_eq_self hplain, expand_eq_self p hfree]
  rw [attributeValue?_of_none he.remove, attributeValue?_of_none he.update, hincluded,
    attributeValue?_of_none he.exclude] at h
  cases h
  have hall : (splitList w).filter (fun value => !listed (splitList (Option.getD none [])) value) =
      splitList w := List.filter_eq_self.2 fun _ _ => rfl
  rw [includeItems_eq, hall, List.map_append, List.map_map]
  exact congrArg _ (List.map_id _)

/-- Every item of a group that is always taken is visited, if it is always taken itself. -/
theorem mem_visitedItems {exists? : FilePath → Bool} {path : FilePath} {t : Text}
    {globals : GlobalProperties} {q : EvaluatedProject}
    (h : evaluate exists? path t globals = .ok q) {root group e : Element}
    (hroot : (Document.parse t).root? = some root) (hgroup : group ∈ root.childElements)
    (hname : group.name = "ItemGroup".toList)
    (hcondition : group.attribute? "Condition".toList = none) (he : e ∈ group.childElements)
    (hown : e.attribute? "Condition".toList = none) :
    e ∈ visitedItems (trace exists? path t globals) := by
  obtain ⟨-, root', hroot', -, hcontent⟩ := evaluateContent_of_evaluate h
  obtain rfl : root' = root := Option.some.inj (hroot'.symm.trans hroot)
  have hchoose : group.name ≠ "Choose".toList := by
    rw [hname]
    decide +kernel
  have hproperty : group.name ≠ "PropertyGroup".toList := by
    rw [hname]
    decide +kernel
  obtain ⟨before, after, hchild, hsubset⟩ :=
    exists_traceChild_subset hcontent (Element.mem_childElements.1 hgroup) hchoose
  have hholds := Source.holds_of_condition_none (s := ⟨path, .ofText t, exists?⟩) (p := before)
    hcondition
  rw [evaluateChild, if_neg hproperty, if_pos hname, hholds] at hchild
  obtain ⟨found, hstep⟩ : ∃ found, ⟨found, .item, e, [group, root']⟩ ∈
      traceGroup ⟨path, .ofText t, exists?⟩ .item [group, root'] (evaluateItem _) before
        group.childElements :=
    exists_step_traceGroup hchild he fun p =>
      Source.takes_of_holds (Source.holds_of_condition_none hown)
  rw [trace, hroot']
  refine List.mem_filterMap.2 ⟨⟨found, .item, e, [group, root']⟩, hsubset ?_, rfl⟩
  rw [traceChild, if_neg hproperty, if_pos hname, Source.takes_of_holds hholds]
  exact hstep

/-- **An only item element that includes a text gives the pieces of the text**, in their order. -/
theorem values_of_evaluate {exists? : FilePath → Bool} {path : FilePath} {t : Text}
    {globals : GlobalProperties} {q : EvaluatedProject}
    (h : evaluate exists? path t globals = .ok q) {e : Element} (he : IsOnlyItem t e) {w : Text}
    (hinclude : e.attributeValue? "Include".toList = some w) (hplain : '&' ∉ w)
    (hfree : Unreferenced w) : q.items.map EvaluatedObject.value = splitList w := by
  obtain ⟨root, group, hroot, hgroup, hname, hcondition, hmem⟩ := he.group
  have hvisited := mem_visitedItems h hroot hgroup hname hcondition hmem he.condition
  have hsublist : (visitedItems (trace exists? path t globals)).Sublist
      (itemElementsOf (Document.parse t)) := by
    rw [itemElementsOf, trace, hroot]
    exact visitedItems_traceContent _ _ _ _ _
  have hitems : visitedItems (trace exists? path t globals) = [e] := by
    obtain ⟨only, honly⟩ := List.length_eq_one_iff.1 he.length_eq
    rw [honly] at hsublist
    rcases List.sublist_singleton.1 hsublist with hnil | hself
    · rw [hnil] at hvisited
      cases hvisited
    · rw [hself] at hvisited ⊢
      rw [List.mem_singleton.1 hvisited]
  obtain ⟨before, after, heval, hbefore, hafter⟩ := (steps_trace h).exists_of_visitedItems hitems
  have hvalues := values_of_evaluateItem heval he.toOnlyIncludes hinclude hplain hfree
  rw [hbefore, hafter, (targets_initialProject path globals).2.1] at hvalues
  exact hvalues

end ProjectFile.Evaluation
