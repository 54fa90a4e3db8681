import ProjectFile.Workspace.Snapshot

/-!
The regions of a document that can be collapsed: every element and comment of more than one line.
-/

namespace ProjectFile.Features

open Workspace

/-- A region that can be collapsed. -/
structure FoldingRange where
  start : Place
  stop : Place
  isComment : Bool
  deriving DecidableEq, Repr

/-- Whether an item is an element, or a comment, or something that does not fold. -/
def foldsAsComment? : Markup.Item → Option Bool
  | .element _ => some false
  | .content .comment _ _ => some true
  | _ => none

/-- The folding range of an item, if it has more than one line. -/
def foldingRange? (index : LineIndex) (i : Markup.Item) : Option FoldingRange :=
  (foldsAsComment? i).bind fun isComment =>
    let start := index.place i.span.start
    let stop := index.place i.span.stop
    if start.line < stop.line then some ⟨start, stop, isComment⟩ else none

/-- The folding ranges of a document, sorted by the line that they start on. Those that start on one
line stay in document order. -/
def foldingRanges (s : Snapshot) : List FoldingRange :=
  (s.document.views.filterMap fun v => foldingRange? s.index v.item).mergeSort
    fun a b => decide (a.start.line ≤ b.start.line)

end ProjectFile.Features
