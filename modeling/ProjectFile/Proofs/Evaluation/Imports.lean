import ProjectFile.Proofs.Evaluation.Indexed

/-!
What the locator knows of imports.

An import is added by one visit, with the value that its element has in the project that the visit finds
(`Visit.Imports`). A visit keeps the imports before it (`Visit.Leads.mem_imports`), so every import that
a run leaves was there before it or was added by one of its visits (`Run.mem_imports`).

The locator finds the element of an import where the visit reported it. So what an entry of the kind
holds is the value of the element at its place, expanded in a project on the way
(`exists_of_mem_objects`).
-/

namespace ProjectFile.Evaluation

open Markup

/-! ## Imports of visits -/

/-- Whether an object is what a visit imports: it stands at the element of the visit and has the value
that the element has in the project. -/
structure Visit.Imports (s : Source) (p : EvaluatedProject) (v : Visit) (o : EvaluatedObject) :
    Prop where
  provenance : o.provenance = some (s.provenance v.element)
  value : attributeValue? p v.element "Project".toList = some o.value

section

variable {s : Source} {p q : EvaluatedProject} {v : Visit} {visits : List Visit} {o : EvaluatedObject}

/-- **Step: what is imported after a visit was imported before it, or the visit imports it.** -/
theorem Visit.Leads.mem_imports (h : v.Leads s p q) (ho : o ∈ q.imports) :
    o ∈ p.imports ∨ v.Imports s p o := by
  cases h with
  | property => exact .inl ho
  | item hholds heval =>
    rw [(evaluateItem_eq heval).1] at ho
    exact .inl ho
  | target =>
    unfold evaluateTarget at ho
    split at ho <;> exact .inl ho
  | @importedProject e around hholds =>
    unfold evaluateImport at ho
    split at ho
    · exact .inl ho
    · next project hproject =>
      rcases List.mem_append.1 ho with ho | ho
      · exact .inl ho
      · rw [List.mem_singleton.1 ho]
        exact .inr ⟨rfl, hproject⟩

/-- **Run: what is imported after a run was imported before it, or one of its visits imports it** in the
project that it finds. -/
theorem Run.mem_imports (h : Run s p visits q) (ho : o ∈ q.imports) :
    o ∈ p.imports ∨ ∃ v ∈ visits, ∃ found, v.Imports s found o := by
  induction h with
  | done => exact .inl ho
  | @visit p q r v visits hvisit _ ih =>
    rcases ih ho with hq | ⟨w, hw, himports⟩
    · rcases hvisit.mem_imports hq with hp | himports
      · exact .inl hp
      · exact .inr ⟨v, List.mem_cons_self, p, himports⟩
    · exact .inr ⟨w, List.mem_cons_of_mem v hw, himports⟩

end

/-! ## Entries of imports -/

/-- **What an entry of an import holds is the value of the element at its place**, expanded in some
project. -/
theorem exists_of_mem_objects {exists? : FilePath → Bool} {path : FilePath} {t : Text}
    {globals : GlobalProperties} {q : EvaluatedProject}
    (h : evaluate exists? path t globals = .ok q) {x : LocatedObject}
    (hx : x ∈ (ObjectLocator.build q (.parse t) (.ofText t)).entries)
    (hkind : x.kind = .importedProject) {o : EvaluatedObject} (ho : o ∈ x.objects) :
    ∃ e ∈ (Document.parse t).elements, x.span = e.span ∧
      ∃ p, attributeValue? p e "Project".toList = some o.value := by
  obtain ⟨visits, hwalk⟩ := exists_walk h
  obtain ⟨a, ha, rfl, hkey⟩ := (ObjectLocator.collects_build q t).objects x hx o ho
  obtain ⟨hkind', hspan, -⟩ : x.kind = a.kind ∧ x.span = a.element.span ∧
      Text.fold x.name = Text.fold a.object.name := by
    simpa [LocatedObject.key, Site.entry] using hkey
  have hdeclares := (places_of_mem_sites ha).declares
  rw [← hkind', hkind] at hdeclares
  generalize hdeclaration : a.declaration.declaration = d at hdeclares
  cases hdeclares with
  | @importedProject _ origin hmem horigin =>
    have hinitial := (targets_initialProject path globals).2.2
    rcases hwalk.run.mem_imports hmem with hnone | ⟨v, hv, found, himports⟩
    · rw [hinitial] at hnone
      cases hnone
    -- The site of the import is the element that was visited.
    have hplace : a.declaration.provenance = Source.provenance ⟨path, .ofText t, exists?⟩ v.element :=
      calc a.declaration.provenance = origin := congrArg Declaration.provenance hdeclaration
        _ = _ := Option.some.inj (horigin.symm.trans himports.provenance)
    have helement : a.element = v.element := by
      have hfound := elementOf?_of_mem_sitesIn ha
      rw [hplace, hwalk.elementOf?_provenance hv] at hfound
      exact (Option.some.inj hfound).symm
    refine ⟨v.element, (hwalk.marks hv).element, ?_, found, himports.value⟩
    rw [hspan, helement]

end ProjectFile.Evaluation
