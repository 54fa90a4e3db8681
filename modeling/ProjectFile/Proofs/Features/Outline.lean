import ProjectFile.Features.Symbols
import ProjectFile.Proofs.Evaluation.Entries
import ProjectFile.Proofs.Markup.Alone

/-!
The outline of an evaluated document.

Every declaration of a project has one entry in the locator (`ObjectLocator.Complete`), and every
entry one symbol in the outline of the document, which selects the name of the declaring element
(`located_of_evaluate`). Elements are told by their starts (`Document.view_eq_of_start`), so the name
that is found for the span of an element is that of the element.
-/

namespace ProjectFile.Features

open Evaluation Markup Workspace

/-! ## Names of elements -/

/-- Elements that start at the same offset are the same. -/
theorem element_eq_of_start {t : Text} {e f : Element} (he : e ∈ (Document.parse t).elements)
    (hf : f ∈ (Document.parse t).elements) (hstart : e.start = f.start) : e = f := by
  obtain ⟨v, hv, hv'⟩ := Document.mem_elements_iff.1 he
  obtain ⟨w, hw, hw'⟩ := Document.mem_elements_iff.1 hf
  have hsame := Document.view_eq_of_start hv hw hv' hw' hstart
  rw [hsame, hw'] at hv'
  exact (Item.element.inj hv').symm

/-- The name that is found for the span of an element is that of the element. -/
theorem lookup_nameSpans {t : Text} {e : Element} (he : e ∈ (Document.parse t).elements) :
    (nameSpans (Document.parse t)).lookup e.span = some e.nameSpan := by
  obtain ⟨before, after, hall, hfirst⟩ := List.eq_append_cons_of_mem he
  rw [List.lookup_eq_some_iff, nameSpans, hall, List.map_append, List.map_cons]
  refine ⟨_, _, rfl, ?_⟩
  rw [List.forall_mem_map]
  intro f hf
  have hne : e.span ≠ f.span := by
    intro hspan
    have hmem : f ∈ (Document.parse t).elements := hall ▸ List.mem_append_left _ hf
    exact hfirst (element_eq_of_start he hmem (congrArg Span.start hspan) ▸ hf)
  simpa using hne

/-- An element of a text without errors has a name. -/
theorem exists_nameSpan {t : Text} (h : (Document.parse t).errors = []) {e : Element}
    (he : e ∈ (Document.parse t).elements) : ∃ name, e.nameSpan = some name := by
  obtain ⟨ns, hreading⟩ := Document.exists_reading h
  obtain ⟨fs, pre, post, hns, -⟩ := hreading.exists_frames he
  have hsound := hreading.sound
  rw [hns, Frame.soundAll_plug, Node.soundAll_append, Node.soundAll_cons] at hsound
  obtain ⟨-, -, hnode, -⟩ := hsound
  obtain ⟨n, hname, -⟩ := hnode.inside.1.name
  exact ⟨_, by rw [Element.nameSpan, hname]; rfl⟩

/-! ## Documents that are evaluated -/

/-- A document whose evaluation succeeds has the locator of the project. -/
theorem snapshot_of_evaluate {exists? : FilePath → Bool} {path : FilePath} {t : Text}
    {settings : Settings} {p : EvaluatedProject}
    (h : evaluate exists? path t settings.globalProperties = .ok p) (file : FileId)
    (version : Version) :
    Snapshot.evaluated ⟨evaluate exists?, settings⟩ file path t version =
      { file, path, version, text := t, index := .ofText t, document := .parse t, project := some p,
        locator := .ok (.build p (.parse t) (.ofText t)), diagnostics := [], isStale := false } := by
  have herrors := (evaluateContent_of_evaluate h).1
  have hvalid : (Document.parse t).isValid = true := by rw [Document.isValid, herrors]; rfl
  rw [Snapshot.evaluated]
  simp only [hvalid, if_true, h, Snapshot.syntaxDiagnostics, herrors]
  rfl

/-! ## Symbols -/

/-- Whether a symbol is that of an entry, with the name of the declaring element as its
selection. -/
structure DocumentSymbol.Shows (symbol : DocumentSymbol) (s : Snapshot) (o : LocatedObject) :
    Prop where
  name : symbol.name = o.name
  kind : symbol.kind = o.kind
  region : symbol.region = s.index.region o.span
  detail : symbol.detail = o.value?
  isWinning : symbol.isWinning = o.isWinning
  selection : ∃ e name, o.declaration.Marks s.path s.text e ∧ o.span = e.span ∧
    e.nameSpan = some name ∧ symbol.selection = s.index.region name

/-- **Every declaration of an evaluated project is located once and shown once.** -/
theorem located_of_evaluate {exists? : FilePath → Bool} {path : FilePath} {t : Text}
    {globals : GlobalProperties} {p : EvaluatedProject}
    (h : evaluate exists? path t globals = .ok p) :
    (ObjectLocator.build p (.parse t) (.ofText t)).Complete p path t ∧
      ∀ settings : Settings, settings.globalProperties = globals → ∀ file version,
        let s := Snapshot.evaluated ⟨evaluate exists?, settings⟩ file path t version
        List.Forall₂ (fun symbol o => DocumentSymbol.Shows symbol s o) (documentSymbols s)
          (ObjectLocator.build p (.parse t) (.ofText t)).entries := by
  have hcomplete := complete_build h
  refine ⟨hcomplete, ?_⟩
  rintro settings rfl file version
  dsimp only
  rw [snapshot_of_evaluate h]
  simp only [documentSymbols, List.forall₂_map_left_iff, List.forall₂_same]
  intro o ho
  obtain ⟨e, hmarks, hspan⟩ := hcomplete.elements o ho
  obtain ⟨name, hname⟩ := exists_nameSpan (evaluateContent_of_evaluate h).1 hmarks.element
  refine ⟨rfl, rfl, rfl, rfl, rfl, e, name, hmarks, hspan, hname, ?_⟩
  simp only [hspan, lookup_nameSpans hmarks.element, hname, Option.getD_some]

/-- A project with a property that is declared twice, one that is given, an element of two items, a
target and an import. -/
def outlined : Text :=
  "<Project><PropertyGroup><a>1</a><g>2</g><A>$(a)3</A></PropertyGroup>\n<ItemGroup><i Include='x;y'/></ItemGroup><Target Name='t'/><Import Project='q'/></Project>".toList

/-- Its declarations are located, and shown in its outline. -/
theorem located_of_evaluate_outlined : ∃ p,
    evaluate (fun _ => false) ⟨"/p".toList⟩ outlined [(['g'], ['v'])] = .ok p ∧
      (ReportedDeclaration.ofProject p).map (fun d => (d.object.kind, d.object.name, d.value)) =
        [(.property, ['g'], ['v']), (.property, ['A'], ['1']), (.property, ['A'], ['1', '3']),
          (.target, ['t'], []), (.item, ['i'], ['x']), (.item, ['i'], ['y']),
          (.importedProject, ['q'], ['q'])] ∧
      (ObjectLocator.build p (.parse outlined) (.ofText outlined)).Complete p ⟨"/p".toList⟩
        outlined ∧
      let s := Snapshot.evaluated
        ⟨evaluate fun _ => false, ⟨.onSave, [(['g'], ['v'])], none⟩⟩ ⟨0⟩ ⟨"/p".toList⟩ outlined 1
      List.Forall₂ (fun symbol o => DocumentSymbol.Shows symbol s o) (documentSymbols s)
        (ObjectLocator.build p (.parse outlined) (.ofText outlined)).entries := by
  have hfound : (evaluate (fun _ => false) ⟨"/p".toList⟩ outlined [(['g'], ['v'])]).toOption.map
      (fun p => (ReportedDeclaration.ofProject p).map fun d =>
        (d.object.kind, d.object.name, d.value)) =
      some [(.property, ['g'], ['v']), (.property, ['A'], ['1']), (.property, ['A'], ['1', '3']),
        (.target, ['t'], []), (.item, ['i'], ['x']), (.item, ['i'], ['y']),
        (.importedProject, ['q'], ['q'])] := by decide +kernel
  cases h : evaluate (fun _ => false) ⟨"/p".toList⟩ outlined [(['g'], ['v'])] with
  | error e =>
    rw [h] at hfound
    cases hfound
  | ok p =>
    rw [h] at hfound
    obtain ⟨hcomplete, hsymbols⟩ := located_of_evaluate h
    exact ⟨p, rfl, Option.some.inj hfound, hcomplete, hsymbols _ rfl ⟨0⟩ 1⟩

end ProjectFile.Features
