import ProjectFile.Proofs.Evaluation.Declared

/-!
Where in a text declarations count.

A project records declarations of properties, items, targets and imports (`EvaluatedProject.Records`).
Each of them stands at an element in an evaluated region (`EvaluatedProject.Regional`): below the
project there are only choices with their branches around it, and a group around a property or an
item. Of every choice only one child has declarations in it. So nothing counts that stands in a
target, in a property, in an item, in an unknown element or in a second branch.

`regional_of_evaluate` says so of every project file. What is recorded was declared by a visit
(`Account`), visits are in such regions (`Visit.Reached`), and those in one choice are in one of its
children (`Unforked`).
-/

namespace ProjectFile.Evaluation

open Markup

/-! ## What is recorded -/

/-- Whether a project records a declaration of something of a kind. -/
inductive EvaluatedProject.Records (p : EvaluatedProject) : ObjectKind → Provenance → Prop
  | property {h : History} {o : Provenance} (hmem : h ∈ p.properties) (ho : o ∈ h.provenances) :
    Records p .property o
  | item {i : EvaluatedObject} {o : Provenance} (hmem : i ∈ p.items)
    (ho : i.provenance = some o) : Records p .item o
  | target {h : History} {o : Provenance} (hmem : h ∈ p.targets) (ho : o ∈ h.provenances) :
    Records p .target o
  | importedProject {i : EvaluatedObject} {o : Provenance} (hmem : i ∈ p.imports)
    (ho : i.provenance = some o) : Records p .importedProject o

/-- Whether a declaration stands at the element of a visit, which a text has with the same elements
around it. -/
structure Visit.StandsAt (v : Visit) (o : Provenance) (path : FilePath) (t : Text) : Prop where
  seen : v.SeenIn (Document.parse t).views
  marks : o.Marks path t v.element

/-- Whether a project records what would be declared by a visit of a text. -/
def EvaluatedProject.RecordsVisit (p : EvaluatedProject) (path : FilePath) (t : Text) (v : Visit) :
    Prop :=
  ∃ o, p.Records v.kind o ∧ v.StandsAt o path t

/-- Whether an element is one that declarations may have around them, itself in `outer`. -/
def Surrounds (e : Element) (outer : List Element) : Prop :=
  e.name = "Project".toList ∨ e.name = "Choose".toList ∨ e.name = "When".toList ∨
    e.name = "Otherwise".toList ∨
    outer.head? = some e ∧ (e.name = "PropertyGroup".toList ∨ e.name = "ItemGroup".toList)

/-- What a project records comes from the evaluated regions of a text. -/
structure EvaluatedProject.Regional (p : EvaluatedProject) (path : FilePath) (t : Text) : Prop where
  /-- A declaration stands where things of its kind are declared. -/
  reached : ∀ kind o, p.Records kind o → ∃ v : Visit, v.kind = kind ∧ v.StandsAt o path t ∧ v.Reached
  /-- Declarations in a choice are in one and the same child of it. -/
  together : ∀ choice : Element, choice.name = "Choose".toList →
    (∃ v, p.RecordsVisit path t v ∧ choice ∈ v.around) →
    ∃ branch ∈ choice.childElements, ∀ v, p.RecordsVisit path t v → choice ∈ v.around →
      branch ∈ v.around
  /-- Nothing else has declarations in it. -/
  outside : ∀ v, p.RecordsVisit path t v → ∀ e ∈ v.around, Surrounds e v.around

/-! ## Elements around a visit -/

theorem Entered.surrounds {around outer : List Element} (h : Entered around) :
    ∀ e ∈ around, Surrounds e outer := by
  induction h with
  | root hname => exact List.forall_mem_singleton.2 (.inl hname)
  | branch hname hchoice _ ih =>
    rw [List.forall_mem_cons, List.forall_mem_cons]
    refine ⟨?_, .inr (.inl hchoice), ih⟩
    exact hname.elim (fun h => .inr (.inr (.inl h))) fun h => .inr (.inr (.inr (.inl h)))

theorem Visit.Reached.surrounds {v : Visit} (h : v.Reached) : ∀ e ∈ v.around, Surrounds e v.around := by
  obtain ⟨kind, element, around⟩ := v
  have hgroup {group : Element} {outer : List Element}
      (hname : group.name = "PropertyGroup".toList ∨ group.name = "ItemGroup".toList) :
      Surrounds group (group :: outer) := .inr (.inr (.inr (.inr ⟨rfl, hname⟩)))
  cases kind with
  | property =>
    cases around with
    | nil => cases h
    | cons group outer => exact List.forall_mem_cons.2 ⟨hgroup (.inl h.1), h.2.surrounds⟩
  | item =>
    cases around with
    | nil => cases h
    | cons group outer => exact List.forall_mem_cons.2 ⟨hgroup (.inr h.1), h.2.surrounds⟩
  | target => exact h.2.surrounds
  | importedProject => exact h.2.surrounds

/-! ## Project files -/

/-- What is recorded was declared by a visit of its kind. -/
theorem Account.exists_visit_of_records {s : Source} {visits : List Visit} {p : EvaluatedProject}
    (h : Account s visits p) {kind : ObjectKind} {o : Provenance} (ho : p.Records kind o) :
    ∃ v ∈ visits, v.kind = kind ∧ o = s.provenance v.element := by
  have hfiltered {declares : Visit → Bool} (ho : o ∈ (visits.filter declares).map fun v =>
      s.provenance v.element) : ∃ v ∈ visits, declares v = true ∧ o = s.provenance v.element := by
    obtain ⟨v, hv, rfl⟩ := List.mem_map.1 ho
    obtain ⟨hv, hdeclares⟩ := List.mem_filter.1 hv
    exact ⟨v, hv, hdeclares, rfl⟩
  cases ho with
  | property hmem ho =>
    rw [h.properties _ hmem] at ho
    obtain ⟨v, hv, hdeclares, rfl⟩ := hfiltered ho
    exact ⟨v, hv, Visit.names_declaresProperty.kind hdeclares, rfl⟩
  | target hmem ho =>
    rw [h.targets _ hmem] at ho
    obtain ⟨v, hv, hdeclares, rfl⟩ := hfiltered ho
    exact ⟨v, hv, Visit.names_declaresTarget.kind hdeclares, rfl⟩
  | @item i _ hmem ho =>
    obtain ⟨es, horigins, -, hvisits⟩ := h.items
    have horigin : i.origin ∈ es.map s.itemOrigin := horigins ▸ List.mem_map_of_mem hmem
    obtain ⟨e, he, horigin⟩ := List.mem_map.1 horigin
    obtain ⟨v, hv, hkind, rfl⟩ := hvisits e he
    have hprovenance : some (s.provenance v.element) = i.provenance :=
      congrArg (fun origin => origin.2.2) horigin
    exact ⟨v, hv, hkind, Option.some.inj (ho.symm.trans hprovenance.symm)⟩
  | @importedProject i _ hmem ho =>
    have hprovenance : some o ∈ (visits.filter Visit.declaresImport).map fun v =>
        some (s.provenance v.element) := h.imports ▸ ho ▸ List.mem_map_of_mem hmem
    obtain ⟨v, hv, ho⟩ := List.mem_map.1 hprovenance
    obtain ⟨hv, hdeclares⟩ := List.mem_filter.1 hv
    exact ⟨v, hv, of_decide_eq_true (Bool.and_eq_true_iff.1 hdeclares).1, (Option.some.inj ho).symm⟩

/-- A declaration tells the visit that stands there. -/
theorem Visit.StandsAt.eq {v w : Visit} {o : Provenance} {path : FilePath} {t : Text}
    (hv : v.StandsAt o path t) (hw : w.StandsAt o path t) (hkind : v.kind = w.kind) : v = w := by
  obtain ⟨view, hview, hitem, haround⟩ := hv.seen
  obtain ⟨view', hview', hitem', haround'⟩ := hw.seen
  have hstart : v.element.start = w.element.start :=
    Except.ok.inj (hv.marks.start.symm.trans hw.marks.start)
  obtain rfl := Document.view_eq_of_start hview hview' hitem hitem' hstart
  obtain ⟨kind, element, around⟩ := v
  obtain ⟨kind', element', around'⟩ := w
  obtain rfl : kind = kind' := hkind
  obtain rfl : element = element' := Item.element.inj (hitem.symm.trans hitem')
  obtain rfl : around = around' := haround.symm.trans haround'
  rfl

/-- **Only evaluated regions contribute.** -/
theorem regional_of_evaluate {exists? : FilePath → Bool} {path : FilePath} {t : Text}
    {globals : GlobalProperties} {p : EvaluatedProject}
    (h : evaluate exists? path t globals = .ok p) : p.Regional path t := by
  obtain ⟨visits, hwalk, hfork⟩ := exists_walk_unforked h
  have hvisit (kind : ObjectKind) (o : Provenance) (ho : p.Records kind o) :
      ∃ v ∈ visits, v.kind = kind ∧ v.StandsAt o path t := by
    obtain ⟨v, hv, hkind, rfl⟩ := hwalk.account.exists_visit_of_records ho
    exact ⟨v, hv, hkind, hwalk.seen v hv, hwalk.marks hv⟩
  have hmem {v : Visit} (hrecords : p.RecordsVisit path t v) : v ∈ visits := by
    obtain ⟨o, ho, hstands⟩ := hrecords
    obtain ⟨w, hw, hkind, hstands'⟩ := hvisit v.kind o ho
    exact hstands.eq hstands' hkind.symm ▸ hw
  refine ⟨fun kind o ho => ?_, fun choice hname hsome => ?_, fun v hv => ?_⟩
  · obtain ⟨v, hv, hkind, hstands⟩ := hvisit kind o ho
    exact ⟨v, hkind, hstands, hwalk.reached v hv⟩
  · obtain ⟨branch, hbranch⟩ := hfork choice hname List.not_mem_nil
    obtain ⟨v, hv, hin⟩ := hsome
    exact ⟨branch, (hbranch v (hmem hv) hin).1, fun w hw hin => (hbranch w (hmem hw) hin).2⟩
  · exact (hwalk.reached v (hmem hv)).surrounds

/-- A project with a choice of two branches that apply, and a property in a target. -/
def branched : Text :=
  "<Project><Choose><Otherwise><PropertyGroup><A/></PropertyGroup></Otherwise><Otherwise><ItemGroup><B Include='b'/></ItemGroup></Otherwise></Choose><Target Name='t'><PropertyGroup><C/></PropertyGroup></Target></Project>".toList

/-- The property of the first branch and the target are recorded, and nothing else. -/
theorem regional_of_evaluate_branched : ∃ p,
    evaluate (fun _ => false) ⟨"/p".toList⟩ branched [] = .ok p ∧
      (p.properties.drop 5).map History.name = [['A']] ∧ p.items.length = 0 ∧
      p.targets.map History.name = [['t']] ∧ p.Regional ⟨"/p".toList⟩ branched := by
  have hfound : (evaluate (fun _ => false) ⟨"/p".toList⟩ branched []).toOption.map (fun p =>
      ((p.properties.drop 5).map History.name, p.items.length, p.targets.map History.name)) =
      some ([['A']], 0, [['t']]) := by decide +kernel
  cases h : evaluate (fun _ => false) ⟨"/p".toList⟩ branched [] with
  | error e =>
    rw [h] at hfound
    cases hfound
  | ok p =>
    rw [h] at hfound
    obtain ⟨hproperties, hrest⟩ := Prod.mk.inj (Option.some.inj hfound)
    obtain ⟨hitems, htargets⟩ := Prod.mk.inj hrest
    exact ⟨p, rfl, hproperties, hitems, htargets, regional_of_evaluate h⟩

end ProjectFile.Evaluation
