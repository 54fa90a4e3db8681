import ProjectFile.Features.Links
import ProjectFile.Proofs.Evaluation.Expanded
import ProjectFile.Proofs.Evaluation.Imports
import ProjectFile.Proofs.Features.Reference

/-!
Links of imports with and without a locator.

The path of an import is the one that was evaluated, if the locator has the import, and else the value as
it is written. What the locator has at an import element is the value of this element, decoded and
expanded (`exists_of_evaluatedImport?`), and only decoded if no reference begins in it
(`eq_unescape_of_evaluatedImport?`).

So an import in which no reference begins and nothing is decoded has the same link either way, whether it
was evaluated or not (`importLink?_unlocated`), and a document with no other imports has the same links
(`documentLinks_unlocated`). Without a locator entities are not decoded, so that a path with one is
another path then (`documentLinks_unlocated_fails`).
-/

namespace ProjectFile.Features

open Evaluation Expression Markup Workspace

/-! ## Evaluated imports -/

section

variable {exists? : FilePath → Bool} {path : FilePath} {t : Text} {settings : Settings}
  {file : FileId} {version : Version} {s : Snapshot}
  (hs : s = Snapshot.evaluated ⟨evaluate exists?, settings⟩ file path t version)

include hs

/-- What was evaluated for an import element is its value, expanded in some project. -/
theorem exists_of_evaluatedImport? {e : Element} (he : e ∈ s.document.elements) {value : Text}
    (h : evaluatedImport? s e = some value) :
    ∃ p, attributeValue? p e "Project".toList = some value := by
  rw [evaluatedImport?] at h
  split at h
  · cases h
  · next l hlocator =>
    subst hs
    obtain ⟨q, hq⟩ := exists_of_locator hlocator
    rw [snapshot_of_evaluate hq] at he hlocator
    cases hlocator
    obtain ⟨x, hx, hvalue⟩ := Option.bind_eq_some_iff.1 h
    obtain ⟨hfound, hchosen⟩ := Option.filter_eq_some_iff.1 hx
    rw [Bool.and_eq_true, beq_iff_eq, beq_iff_eq] at hchosen
    obtain ⟨o, ho, rfl⟩ := Option.map_eq_some_iff.1 hvalue
    have hentry := ((ObjectLocator.indexes_build q t).found e.start x hfound).1
    obtain ⟨f, hf, hspan, p, hp⟩ :=
      exists_of_mem_objects hq hentry hchosen.1 (List.mem_of_mem_head? ho)
    -- The entry has the span of the element, so it is the element's.
    have hstart : f.start = e.start := congrArg Span.start (hspan.symm.trans hchosen.2)
    rw [element_eq_of_start hf he hstart] at hp
    exact ⟨p, hp⟩

/-- If no reference begins in the decoded value, the decoded value is what was evaluated. -/
theorem eq_unescape_of_evaluatedImport? {e : Element} (he : e ∈ s.document.elements)
    {written : Text} (hwritten : e.attributeValue? "Project".toList = some written)
    (hunreferenced : Unreferenced (unescape written)) {value : Text}
    (h : evaluatedImport? s e = some value) : value = unescape written := by
  obtain ⟨p, hp⟩ := exists_of_evaluatedImport? hs he h
  rw [attributeValue?, hwritten, Option.map_some, expand_eq_self p hunreferenced] at hp
  exact (Option.some.inj hp).symm

/-! ## Links -/

/-- **An import that is a plain path has the same link without the locator.** -/
theorem importLink?_unlocated {e : Element} (he : e ∈ s.document.elements)
    (hplain : ∀ written ∈ e.attributeValue? "Project".toList,
      Unreferenced written ∧ unescape written = written) (reason : LocatorUnavailable) :
    importLink? { s with locator := .error reason } e = importLink? s e := by
  have hsame (a : PlacedAttribute) (ha : e.attribute? "Project".toList = some a) :
      (evaluatedImport? s e).or a.value = a.value := by
    cases hvalue : evaluatedImport? s e with
    | none => exact Option.none_or
    | some value =>
      obtain ⟨p, hp⟩ := exists_of_evaluatedImport? hs he hvalue
      obtain ⟨written, hwritten, -⟩ := Option.map_eq_some_iff.1 hp
      obtain ⟨hunreferenced, hdecoded⟩ := hplain written hwritten
      have hevaluated : value = unescape written :=
        eq_unescape_of_evaluatedImport? hs he hwritten (by rwa [hdecoded]) hvalue
      rw [Element.attributeValue?, ha, Option.bind_some] at hwritten
      rw [hwritten, hevaluated, hdecoded, Option.some_or]
  rw [importLink?, importLink?]
  cases ha : e.attribute? "Project".toList with
  | none => rfl
  | some a =>
    simp only [Option.bind_some, hsame a ha]
    rfl

/-- **A document whose imports are plain paths has the same links without the locator.** -/
theorem documentLinks_unlocated
    (hplain : ∀ e ∈ s.document.elements, e.name = "Import".toList →
      ∀ written ∈ e.attributeValue? "Project".toList,
        Unreferenced written ∧ unescape written = written) (reason : LocatorUnavailable) :
    documentLinks { s with locator := .error reason } = documentLinks s := by
  rw [documentLinks, documentLinks]
  apply List.filterMap_congr
  intro e he
  obtain ⟨he, hname⟩ := List.mem_filter.1 he
  exact importLink?_unlocated hs he (hplain e he (beq_iff_eq.1 hname)) reason

end

/-- An import that is evaluated, and one whose condition does not hold. -/
def importing : Text :=
  "<Project><Import Project=' a\\b.props '/><Import Project='c&d;(e)' Condition=\"'1'=='2'\"/></Project>".toList

/-- The document of this text when it is opened. -/
def importingSnapshot : Snapshot :=
  .evaluated ⟨evaluate fun _ => false, .default⟩ ⟨0⟩ ⟨"/p/x.proj".toList⟩ importing 1

/-- It has the same links without its locator. -/
theorem documentLinks_unlocated_importing :
    importingSnapshot.document.elements.map (evaluatedImport? importingSnapshot) =
      [none, some " a\\b.props ".toList, none] ∧
    (documentLinks importingSnapshot).map (fun link => link.target.text) =
      ["/p/a/b.props".toList, "/p/c&d;(e)".toList] ∧
    ∀ reason, documentLinks { importingSnapshot with locator := .error reason } =
      documentLinks importingSnapshot := by
  have hplain : ∀ e ∈ importingSnapshot.document.elements, e.name = "Import".toList →
      ∀ written ∈ e.attributeValue? "Project".toList,
        Unreferenced written ∧ unescape written = written := by decide +kernel
  refine ⟨by decide +kernel, by decide +kernel, fun reason => ?_⟩
  exact documentLinks_unlocated importingSnapshot.eq_1 hplain reason

/-- An import of a file with an ampersand in its name. -/
def ampersand : Text := "<Project><Import Project='a&amp;b.props'/></Project>".toList

/-- The entity is decoded by evaluation only, so without a locator the link is another. -/
theorem documentLinks_unlocated_fails : ¬ ∀ (exists? : FilePath → Bool) (settings : Settings)
    (file : FileId) (path : FilePath) (t : Text) (version : Version) (s : Snapshot)
    (l : ObjectLocator),
    s = Snapshot.evaluated ⟨evaluate exists?, settings⟩ file path t version → s.locator = .ok l →
    (∀ e ∈ s.document.elements, e.name = "Import".toList →
      ∀ written ∈ e.attributeValue? "Project".toList, Unreferenced written) →
    ∀ reason, documentLinks { s with locator := .error reason } = documentLinks s := by
  intro hall
  let s := Snapshot.evaluated ⟨evaluate fun _ => false, .default⟩ ⟨0⟩ ⟨"/p/x.proj".toList⟩ ampersand 1
  have hlocator : s.locator.toBool = true := by decide +kernel
  obtain ⟨l, hl⟩ : ∃ l, s.locator = .ok l := by
    cases h : s.locator with
    | error => rw [h] at hlocator; cases hlocator
    | ok l => exact ⟨l, rfl⟩
  have hsame := hall (fun _ => false) .default ⟨0⟩ ⟨"/p/x.proj".toList⟩ ampersand 1 s l rfl hl
    (by decide +kernel) .pending
  have hne : documentLinks { s with locator := .error .pending } ≠ documentLinks s := by
    decide +kernel
  exact hne hsame

end ProjectFile.Features
