import ProjectFile.Text.Class

/-!
Paths of element names. An absolute path names the elements from the root down; a relative one
stands for every path that ends with it.
-/

namespace ProjectFile.Markup

/-- A path of names, outermost first. -/
structure NodePath where
  segments : List Text
  absolute : Bool
  deriving DecidableEq, Repr

namespace NodePath

/-- The path of the document. -/
def root : NodePath := ⟨[], true⟩

/-- The path from the root down. -/
def ofSegments (segments : List Text) : NodePath := ⟨segments, true⟩

/-- Reads a path. Blanks around it and empty segments do not count; it is absolute if it is empty
or begins with `/`. -/
def parse (t : Text) : NodePath :=
  let trimmed := Text.trim t
  { segments := (Text.splitOn '/' trimmed).filter fun s => !s.isEmpty
    absolute := trimmed.isEmpty || trimmed.head? == some '/' }

/-- The segments with a `/` between every two. -/
def joined : List Text → Text
  | [] => []
  | [s] => s
  | s :: rest => s ++ '/' :: joined rest

/-- The text form. -/
def text (p : NodePath) : Text := (if p.absolute then ['/'] else []) ++ joined p.segments

/-- Whether this is the path of the document. -/
def isRoot (p : NodePath) : Bool := p.absolute && p.segments.isEmpty

/-- The number of segments. -/
def depth (p : NodePath) : Nat := p.segments.length

/-- The last segment. -/
def name (p : NodePath) : Option Text := p.segments.getLast?

/-- The path one step down. -/
def child (p : NodePath) (name : Text) : NodePath := { p with segments := p.segments ++ [name] }

/-- The path one step up. -/
def parent (p : NodePath) : Option NodePath :=
  if p.segments.isEmpty then none else some { p with segments := p.segments.dropLast }

/-- Whether the path, as a pattern, stands for `q`. -/
def accepts (p q : NodePath) : Bool :=
  if p.absolute then p.segments == q.segments
  else !p.segments.isEmpty && p.segments.isSuffixOf q.segments

end NodePath

end ProjectFile.Markup
