import ProjectFile.Workspace.Snapshot

/-!
The outline of a document: one symbol for each declaring element.
-/

namespace ProjectFile.Features

open Evaluation Workspace

/-- A declaration in the outline. -/
structure DocumentSymbol where
  name : Text
  kind : ObjectKind
  /-- The declaring element. -/
  region : Region
  /-- The name of the element, or the whole element if it has none. -/
  selection : Region
  /-- The final value. -/
  detail : Option Text
  /-- Whether no later declaration overrides this one. -/
  isWinning : Bool

/-- The spans of the elements of a document, each with the span of its name, if it has one. -/
def nameSpans (d : Markup.Document) : List (Span × Option Span) :=
  d.elements.map fun e => (e.span, e.nameSpan)

/-- The symbols of a document, in document order; none if it has no object locator. -/
def documentSymbols (s : Snapshot) : List DocumentSymbol :=
  match s.locator with
  | .error _ => []
  | .ok locator =>
    let names := nameSpans s.document
    locator.entries.map fun o =>
      { name := o.name
        kind := o.kind
        region := s.index.region o.span
        selection := s.index.region (((names.lookup o.span).getD none).getD o.span)
        detail := o.value?
        isWinning := o.isWinning }

end ProjectFile.Features
