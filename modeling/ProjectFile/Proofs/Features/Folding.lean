import ProjectFile.Features.Folding
import ProjectFile.Proofs.Markup.Extents
import ProjectFile.Proofs.Source.Breaks
import ProjectFile.Proofs.Workspace.Ledger

/-!
The regions that fold.

A region folds if it is on more than one line. `regions` says which these are without reference to
lines: the elements and comments with a terminator of a line in their text. An element or a comment ends
where a piece of the text does, so its end is never in the middle of a terminator, and the two agree
(`foldingRange?_eq`). The items of the view are stacked, and the places of offsets are in their order, so
the ranges are in order as they come, and the sort leaves them alone (`folded_of_parse`).
-/

namespace ProjectFile

/-- Whether an item is an element or a comment. -/
def Markup.Item.canFold : Item → Bool
  | .element _ => true
  | .content .comment _ _ => true
  | _ => false

def Markup.Item.isComment : Item → Bool
  | .content .comment _ _ => true
  | _ => false

namespace Features

open Markup Workspace

/-! ## Regions -/

/-- The elements and comments of a document with a terminator of a line in their text, in document
order. -/
def regions (d : Document) : List Item :=
  (d.views.map View.item).filter fun i => i.canFold && i.source.hasBreak

/-- The range of an item, on however many lines. -/
def FoldingRange.ofItem (index : LineIndex) (i : Item) : FoldingRange :=
  ⟨index.place i.span.start, index.place i.span.stop, i.isComment⟩

/-- What it means for the folding ranges of a snapshot to be its regions. -/
structure Folded (s : Snapshot) : Prop where
  /-- They are the regions, once each and in document order. -/
  ranges : foldingRanges s = (regions s.document).map (FoldingRange.ofItem s.index)
  /-- They start one behind the other. -/
  increasing : (foldingRanges s).Pairwise fun r q => r.start < q.start
  multiline : ∀ r ∈ foldingRanges s, r.start.line < r.stop.line
  /-- Of two ranges the second lies behind the first, or inside it. -/
  nested : (foldingRanges s).Pairwise fun r q =>
    r.stop ≤ q.start ∨ r.start ≤ q.start ∧ q.stop ≤ r.stop

theorem foldsAsComment?_eq (i : Item) :
    foldsAsComment? i = if i.canFold then some i.isComment else none := by
  match i with
  | .element _ => rfl
  | .attribute _ => rfl
  | .content kind _ _ => cases kind <;> rfl

/-- An element and a comment are no attributes. -/
theorem attribute?_of_canFold {i : Item} (h : i.canFold = true) : i.attribute? = none := by
  match i with
  | .element _ => rfl
  | .attribute _ => cases h
  | .content _ _ _ => rfl

/-- A part of a text that ends where a piece does divides no terminator. -/
theorem not_divides_of_endsAtAngle {w behind : Text} (h : EndsAtAngle w behind) :
    ¬ Text.Divides w behind := by
  rintro ⟨hcr, hlf⟩
  rcases h with hangle | hopens
  · rw [hangle] at hcr
    cases hcr
  · have heq : '\n' = '<' := hopens _ hlf
    cases heq

/-- **An item of the view of a text has a folding range exactly if it is an element or a comment with a
terminator of a line in its text.** -/
theorem foldingRange?_eq {t : Text} {i : Item} (hmade : i.IsMade t) :
    foldingRange? (.ofText t) i =
      if i.canFold && i.source.hasBreak then some (FoldingRange.ofItem (.ofText t) i) else none := by
  rw [foldingRange?, foldsAsComment?_eq]
  cases hfold : i.canFold with
  | false => rfl
  | true =>
    obtain ⟨before, behind, rfl, hstart, hends⟩ := hmade.exists_ends (attribute?_of_canFold hfold)
    have hlines := @LineIndex.line_lt_line_iff_hasBreak before _ _
      (not_divides_of_endsAtAngle hends)
    rw [hstart, ← i.stop_span] at hlines
    simp only [if_true, Option.bind_some, Bool.true_and, hlines, FoldingRange.ofItem]

/-! ## Ranges -/

section Ranges

variable {t : Text}

theorem filterMap_foldingRange? (t : Text) :
    ((Document.parse t).views.filterMap fun v => foldingRange? (.ofText t) v.item) =
      (regions (.parse t)).map (FoldingRange.ofItem (.ofText t)) := by
  rw [regions, ← List.filterMap_eq_map, List.filterMap_filter, List.filterMap_map]
  exact List.filterMap_congr fun v hv => foldingRange?_eq (Document.isMade_views t v hv)

/-- The regions of a text are in it. -/
theorem stop_le_of_mem_regions {i : Item} (hi : i ∈ regions (.parse t)) :
    i.span.start < i.span.stop ∧ i.span.stop ≤ t.width := by
  obtain ⟨v, hv, rfl⟩ := List.mem_map.1 (List.mem_filter.1 hi).1
  have hstack := Document.stack_views t
  have hstop := (hstack.within v hv).2
  rw [Span.ofSize, Nat.zero_add] at hstop
  exact ⟨hstack.filled v hv, hstop⟩

/-- The regions of a text start one behind the other, and each lies behind those before it or inside
them. -/
theorem pairwise_regions (t : Text) : (regions (.parse t)).Pairwise fun i j =>
    i.span.start < j.span.start ∧ j.span.Follows i.span :=
  (List.pairwise_map.2 (Document.stack_views t).follows).filter _

/-- So do their ranges. -/
theorem pairwise_ranges (t : Text) :
    ((regions (.parse t)).map (FoldingRange.ofItem (.ofText t))).Pairwise fun r q =>
      r.start < q.start ∧ (r.stop ≤ q.start ∨ r.start ≤ q.start ∧ q.stop ≤ r.stop) := by
  have hordered := LineIndex.ordered_ofText t
  rw [List.pairwise_map]
  refine (pairwise_regions t).imp_of_mem fun {i j} hi hj h => ?_
  obtain ⟨hstart, hfollows⟩ := h
  obtain ⟨hi, histop⟩ := stop_le_of_mem_regions hi
  obtain ⟨hj, hjstop⟩ := stop_le_of_mem_regions hj
  have hbegin : j.span.start ≤ t.width := by omega
  refine ⟨LineIndex.place_lt_place hordered hstart hbegin, ?_⟩
  rcases hfollows with hbehind | ⟨hin, hstop⟩
  · exact .inl (LineIndex.place_le_place hordered hbehind hbegin)
  · exact .inr ⟨LineIndex.place_le_place hordered hin hbegin,
      LineIndex.place_le_place hordered hstop histop⟩

end Ranges

/-- **The folding ranges of a text are its regions.** Ranges that start one behind the other are sorted
by their lines, so the sort changes nothing. -/
theorem folded_of_parse {s : Snapshot} {t : Text} (hdocument : s.document = .parse t)
    (hindex : s.index = .ofText t) : Folded s := by
  have hpairs := pairwise_ranges t
  have hranges : foldingRanges s = (regions (.parse t)).map (FoldingRange.ofItem (.ofText t)) := by
    rw [foldingRanges, hdocument, hindex, filterMap_foldingRange?]
    refine List.mergeSort_of_pairwise (hpairs.imp fun {r q} h => ?_)
    rw [decide_eq_true_eq]
    rcases h.1 with hline | ⟨hline, -⟩
    · exact Nat.le_of_lt hline
    · exact Nat.le_of_eq hline
  constructor
  case ranges => rw [hranges, hdocument, hindex]
  case increasing =>
    rw [hranges]
    exact hpairs.imp And.left
  case multiline =>
    intro r hr
    have hmem : r ∈ (Document.parse t).views.filterMap fun v => foldingRange? (.ofText t) v.item := by
      rwa [filterMap_foldingRange?, ← hranges]
    obtain ⟨v, -, hv⟩ := List.mem_filterMap.1 hmem
    rw [foldingRange?] at hv
    obtain ⟨comment, -, hrange⟩ := Option.bind_eq_some_iff.1 hv
    dsimp only at hrange
    split at hrange
    · next hline => exact Option.some.inj hrange ▸ hline
    · cases hrange
  case nested =>
    rw [hranges]
    exact hpairs.imp And.right

/-- **The folding ranges of every snapshot are its regions**, whether the snapshot is of a text that
has been evaluated or of one that has only been parsed: the elements and comments with a terminator of a
line in their text, in document order, nested or apart. -/
theorem folded_snapshot (a : Analysis) (file : FileId) (path : FilePath) (before : Snapshot) (t : Text)
    (version : Version) :
    Folded (.evaluated a file path t version) ∧ Folded (.parsed before t version) := by
  obtain ⟨project, locator, diagnostics, heq⟩ := Snapshot.evaluated_eq a file path t version
  refine ⟨?_, folded_of_parse rfl rfl⟩
  rw [heq]
  exact folded_of_parse rfl rfl

/-- An element that is not closed ends in front of the end tag that leaves it behind. -/
example : (regions (.parse "<a><b>\r\n</a>\n<!--c-->".toList)).map Item.span = [⟨0, 12⟩, ⟨3, 8⟩] := by
  decide +kernel

end Features

end ProjectFile
