import ProjectFile.Proofs.Source.Positions
import ProjectFile.Proofs.Text.Cuts

/-!
Lines and their terminators.

A layout is a text as lines with a terminator behind each but the last. The scan for line starts
runs over the content of a line (`LineIndex.breaks_append`) and takes what stands behind it as one
terminator (`LineIndex.breaks_terminator`), unless a carriage return and a line feed that end two
lines stand together, which a layout rules out. So the lines of a layout start where its index says
(`Layout.starts_ofText`), whatever the terminators are (`Layout.positions_ofText`).
-/

namespace ProjectFile

/-! ## Layouts -/

/-- How a line may end. -/
inductive Terminator where
  | lineFeed
  | carriageReturn
  /-- A carriage return and a line feed. -/
  | both
  deriving DecidableEq, Repr

def Terminator.text : Terminator → Text
  | .lineFeed => ['\n']
  | .carriageReturn => ['\r']
  | .both => ['\r', '\n']

/-- A line and what ends it. -/
structure EndedLine where
  content : Text
  terminator : Terminator
  deriving DecidableEq, Repr

namespace EndedLine

def text (l : EndedLine) : Text := l.content ++ l.terminator.text

/-- The text of lines that follow one another. -/
def textOfAll (ls : List EndedLine) : Text := ls.flatMap text

/-- Whether the terminators of two lines that follow one another read as one: a carriage return, and
a line feed that ends an empty line. -/
def Merges (a b : EndedLine) : Prop :=
  a.terminator = .carriageReturn ∧ b.content = [] ∧ b.terminator = .lineFeed

end EndedLine

/-- Whether a text holds no line terminator. -/
def Text.IsLine (t : Text) : Prop := ∀ c ∈ t, c ≠ '\r' ∧ c ≠ '\n'

/-- Lines with a terminator behind each but the last. -/
structure Layout where
  ended : List EndedLine
  last : Text
  isLine : ∀ line ∈ ended.map EndedLine.content ++ [last], line.IsLine
  apart : ended.IsChain fun a b => ¬ a.Merges b

namespace Layout

/-- The lines without their terminators. -/
def lines (l : Layout) : List Text := l.ended.map EndedLine.content ++ [l.last]

def text (l : Layout) : Text := EndedLine.textOfAll l.ended ++ l.last

/-- The offset at which a line starts. -/
def start (l : Layout) (line : Nat) : Nat := Text.width (EndedLine.textOfAll (l.ended.take line))

end Layout

/-! ## The scan for line starts -/

namespace LineIndex

/-- The scan runs over the content of a line. -/
theorem breaks_append (offset : Nat) {line : Text} (hline : line.IsLine) (rest : Text) :
    breaks offset (line ++ rest) = breaks (offset + line.width) rest := by
  induction line generalizing offset with
  | nil => rfl
  | cons c line ih =>
    obtain ⟨hc, hline⟩ := List.forall_mem_cons.1 hline
    have hstep : breaks offset (c :: (line ++ rest)) = breaks (offset + c.utf8Size) (line ++ rest) := by
      apply breaks.eq_5
      · intro t hcr _
        exact hc.1 hcr
      · exact hc.1
      · exact hc.2
    rw [List.cons_append, hstep, ih _ hline, Text.width_cons, Nat.add_assoc]

/-- What ends a line is one terminator, unless a line feed follows a carriage return. -/
theorem breaks_terminator (offset : Nat) (e : Terminator) {rest : Text}
    (hrest : e = .carriageReturn → rest.head? ≠ some '\n') :
    breaks offset (e.text ++ rest) =
      (offset + e.text.width) :: breaks (offset + e.text.width) rest := by
  cases e with
  | lineFeed => rfl
  | both => rfl
  | carriageReturn =>
    show breaks offset ('\r' :: rest) = (offset + 1) :: breaks (offset + 1) rest
    apply breaks.eq_3
    intro t ht
    apply hrest rfl
    rw [ht]
    rfl

end LineIndex

open LineIndex (breaks breaks_append breaks_terminator)

theorem Text.IsLine.head?_ne {line : Text} (hline : line.IsLine) : line.head? ≠ some '\n' := by
  intro hhead
  exact (hline _ (List.mem_of_head? hhead)).2 rfl

namespace EndedLine

theorem textOfAll_cons (e : EndedLine) (es : List EndedLine) :
    textOfAll (e :: es) = e.content ++ (e.terminator.text ++ textOfAll es) := by
  simp [textOfAll, text]

theorem textOfAll_append (es fs : List EndedLine) :
    textOfAll (es ++ fs) = textOfAll es ++ textOfAll fs := List.flatMap_append

/-- A line stands between those before it and those behind it. -/
theorem textOfAll_eq {es : List EndedLine} {i : Nat} {e : EndedLine} (h : es[i]? = some e) :
    textOfAll es =
      textOfAll (es.take i) ++ (e.content ++ (e.terminator.text ++ textOfAll (es.drop (i + 1)))) := by
  obtain ⟨hi, rfl⟩ := List.getElem?_eq_some_iff.1 h
  have hsplit : es = es.take i ++ es[i] :: es.drop (i + 1) := by simp
  calc textOfAll es = textOfAll (es.take i ++ es[i] :: es.drop (i + 1)) := congrArg textOfAll hsplit
    _ = _ := by rw [textOfAll_append, textOfAll_cons]

/-- Behind a line whose terminator is its own, no line feed comes first. -/
theorem head?_textOfAll_append_ne {e : EndedLine} {es : List EndedLine} {last : Text}
    (hes : ∀ l ∈ es, l.content.IsLine) (hlast : last.IsLine)
    (hapart : (e :: es).IsChain fun a b => ¬ a.Merges b) (hcr : e.terminator = .carriageReturn) :
    (textOfAll es ++ last).head? ≠ some '\n' := by
  cases es with
  | nil => exact hlast.head?_ne
  | cons f es =>
    have hmerges : ¬ e.Merges f := by
      cases hapart with
      | cons_cons h _ => exact h
    obtain ⟨hf, -⟩ := List.forall_mem_cons.1 hes
    rw [textOfAll_cons]
    cases hcontent : f.content with
    | cons c line =>
      rw [hcontent] at hf
      exact hf.head?_ne
    | nil =>
      cases hend : f.terminator with
      | lineFeed => exact absurd ⟨hcr, hcontent, hend⟩ hmerges
      | carriageReturn => simp [Terminator.text]
      | both => simp [Terminator.text]

/-- **The scan finds the end of each line once.** -/
theorem breaks_textOfAll (offset : Nat) {es : List EndedLine} {last : Text}
    (hes : ∀ l ∈ es, l.content.IsLine) (hlast : last.IsLine)
    (hapart : es.IsChain fun a b => ¬ a.Merges b) :
    breaks offset (textOfAll es ++ last) = (List.range es.length).map fun i =>
      offset + Text.width (textOfAll (es.take (i + 1))) := by
  induction es generalizing offset with
  | nil =>
    have hend := breaks_append offset hlast []
    rw [List.append_nil] at hend
    exact hend
  | cons e es ih =>
    obtain ⟨he, hes⟩ := List.forall_mem_cons.1 hes
    have hnext := head?_textOfAll_append_ne hes hlast hapart
    have hrest := ih (offset + e.content.width + e.terminator.text.width) hes hapart.tail
    rw [textOfAll_cons, List.append_assoc, List.append_assoc, breaks_append _ he,
      breaks_terminator _ _ hnext, hrest, List.length_cons, List.range_succ_eq_map, List.map_cons,
      List.map_map]
    congr 1
    · simp [textOfAll, text, Nat.add_assoc]
    · apply List.map_congr_left
      intro i _
      simp [textOfAll_cons, Nat.add_assoc]

end EndedLine

/-! ## The lines of a layout -/

namespace Layout

open LineIndex (ofText)

variable {l : Layout}

theorem lines_cases {i : Nat} {line : Text} (h : l.lines[i]? = some line) :
    (∃ e, l.ended[i]? = some e ∧ e.content = line) ∨ i = l.ended.length ∧ l.last = line := by
  rw [lines] at h
  rcases Nat.lt_or_ge i (l.ended.map EndedLine.content).length with hlt | hge
  · rw [List.getElem?_append_left hlt, List.getElem?_map, Option.map_eq_some_iff] at h
    exact .inl h
  · rw [List.getElem?_append_right hge] at h
    obtain ⟨hzero, hlast⟩ := List.getElem?_eq_some_iff.1 h
    rw [List.length_map] at hge hzero
    rw [List.length_singleton] at hzero
    refine .inr ⟨by omega, ?_⟩
    simpa using hlast

/-- **The lines of a layout start where the index of its text says.** -/
theorem starts_ofText (l : Layout) :
    (ofText l.text).starts = (List.range l.lines.length).map l.start := by
  have hes : ∀ e ∈ l.ended, e.content.IsLine := by
    intro e he
    apply l.isLine
    exact List.mem_append_left _ (List.mem_map_of_mem he)
  have hlast : l.last.IsLine := by
    apply l.isLine
    exact List.mem_append_right _ (List.mem_singleton_self _)
  have hbreaks := EndedLine.breaks_textOfAll 0 hes hlast l.apart
  have hcount : l.lines.length = l.ended.length + 1 := by simp [lines]
  show 0 :: breaks 0 l.text = _
  rw [text, hbreaks, hcount, List.range_succ_eq_map, List.map_cons, List.map_map]
  congr 1
  apply List.map_congr_left
  intro i _
  exact Nat.zero_add _

/-- A line with its terminator reaches to the start of the next. -/
theorem start_succ {i : Nat} {e : EndedLine} (h : l.ended[i]? = some e) :
    l.start (i + 1) = l.start i + e.content.width + e.terminator.text.width := by
  simp [start, List.take_add_one, h, EndedLine.textOfAll, EndedLine.text, Nat.add_assoc]

/-- Each line stands at its start. -/
theorem covers_start {i : Nat} {line : Text} (h : l.lines[i]? = some line) :
    Span.Covers (.ofSize (l.start i) line.width) l.text line := by
  rcases lines_cases h with ⟨e, he, rfl⟩ | ⟨rfl, rfl⟩
  · refine ⟨EndedLine.textOfAll (l.ended.take i),
      e.terminator.text ++ (EndedLine.textOfAll (l.ended.drop (i + 1)) ++ l.last), ?_, rfl, rfl⟩
    rw [text, EndedLine.textOfAll_eq he]
    simp
  · refine ⟨EndedLine.textOfAll l.ended, [], ?_, ?_, ?_⟩
    · simp [text]
    · simp [start, Span.ofSize]
    · simp [start, Span.ofSize]

/-- The bytes of a line, and the offset behind them, are on it. -/
theorem addresses_start {i j : Nat} {line : Text} (h : l.lines[i]? = some line)
    (hj : j ≤ line.width) : (ofText l.text).Addresses ⟨i, j⟩ (l.start i + j) := by
  obtain ⟨hi, -⟩ := List.getElem?_eq_some_iff.1 h
  have hstart : (ofText l.text).starts[i]? = some (l.start i) := by
    simp [starts_ofText, hi]
  rcases lines_cases h with ⟨e, he, rfl⟩ | ⟨rfl, rfl⟩
  · have hnext : (ofText l.text).starts[i + 1]? = some (l.start (i + 1)) := by
      obtain ⟨hlt, -⟩ := List.getElem?_eq_some_iff.1 he
      have hi' : i + 1 < l.lines.length := by
        simp [lines]
        omega
      simp [starts_ofText, hi']
    refine ⟨l.start i, l.start (i + 1), hstart, LineIndex.getElem?_fences_of_starts hnext, rfl, ?_⟩
    have hpos : 0 < e.terminator.text.width := by cases e.terminator <;> decide
    rw [start_succ he]
    omega
  · have hcount : (ofText l.text).starts.length = l.ended.length + 1 := by
      simp [starts_ofText, lines]
    refine ⟨l.start l.ended.length, l.text.width + 1, hstart, ?_, rfl, ?_⟩
    · rw [LineIndex.fences, List.getElem?_append_right (Nat.le_of_eq hcount), hcount, Nat.sub_self]
      rfl
    · simp [start, text]
      omega

/-- **Every terminator ends one line, whichever it is.** The index of a layout has as many lines as
the layout, and the bytes of a line have the line's number and their own distance from its start,
which no other choice of terminators changes. -/
theorem positions_ofText (l : Layout) :
    (ofText l.text).lineCount = l.lines.length ∧
      (∀ i line, l.lines[i]? = some line → Span.Covers (.ofSize (l.start i) line.width) l.text line ∧
        ∀ j ≤ line.width, (ofText l.text).position (l.start i + j) = ⟨i, j, .zeroBased⟩) ∧
      ∀ m : Layout, m.lines = l.lines → ∀ i line, l.lines[i]? = some line → ∀ j ≤ line.width,
        (ofText m.text).position (m.start i + j) = (ofText l.text).position (l.start i + j) := by
  have hposition (m : Layout) {i : Nat} {line : Text} (h : m.lines[i]? = some line) {j : Nat}
      (hj : j ≤ line.width) : (ofText m.text).position (m.start i + j) = ⟨i, j, .zeroBased⟩ := by
    have hplace := (addresses_start h hj).eq_place (LineIndex.ordered_ofText m.text)
    rw [LineIndex.position, hplace]
    rfl
  refine ⟨?_, ?_, ?_⟩
  · simp [LineIndex.lineCount, starts_ofText]
  · intro i line h
    exact ⟨covers_start h, fun j hj => hposition l h hj⟩
  · intro m hlines i line h j hj
    rw [hposition l h hj, hposition m (hlines ▸ h) hj]

/-- A line that ends with a carriage return, before an empty one that ends with both characters. -/
def mixed : Layout where
  ended := [⟨['a'], .carriageReturn⟩, ⟨[], .both⟩, ⟨['b', 'c'], .lineFeed⟩]
  last := []
  isLine := by simp [Text.IsLine]
  apart := by simp [EndedLine.Merges]

/-- The second byte of the third line has the same position where all lines end with line feeds. -/
theorem positions_ofText_mixed :
    (ofText "a\r\r\nbc\n".toList).lineCount = 4 ∧
      (ofText "a\r\r\nbc\n".toList).position 5 = ⟨2, 1, .zeroBased⟩ ∧
      (ofText "a\n\nbc\n".toList).position 4 = (ofText "a\r\r\nbc\n".toList).position 5 := by
  obtain ⟨feeds, htext, hlines, hstart⟩ : ∃ feeds : Layout,
      feeds.text = "a\n\nbc\n".toList ∧ feeds.lines = mixed.lines ∧ feeds.start 2 = 3 :=
    ⟨⟨[⟨['a'], .lineFeed⟩, ⟨[], .lineFeed⟩, ⟨['b', 'c'], .lineFeed⟩], [], by simp [Text.IsLine],
      by simp [EndedLine.Merges]⟩, rfl, rfl, rfl⟩
  have hthird : mixed.lines[2]? = some ['b', 'c'] := rfl
  obtain ⟨hcount, hposition, hsame⟩ := positions_ofText mixed
  obtain ⟨-, hbytes⟩ := hposition 2 _ hthird
  have hagree := hsame feeds hlines 2 _ hthird 1 (by decide)
  rw [htext, hstart] at hagree
  exact ⟨hcount, hbytes 1 (by decide), hagree⟩

/-- A carriage return and the line feed of an empty line behind it end one line, not two. -/
example : (ofText (EndedLine.textOfAll [⟨['a'], .carriageReturn⟩, ⟨[], .lineFeed⟩])).lineCount = 2 := by
  decide

end Layout

end ProjectFile
